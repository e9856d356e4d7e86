import Jed.Lib.Heap
import Jed.Sorts.Order

/-!
# The first rows of a sort

The keeper of the first `k` rows of an order (`executor/window.rs:1206-1386`): a heap of at most `k` rows,
the last of which gives way, with the position of arrival to tell equal rows apart.
-/

namespace Jed.Sorts

open Compare Key KeyCodes Results StableSort

/-- `TopKItem`. -/
structure TopKItem where
  keys : List (Option Bytes)
  row : List Value
  pos : Nat

/-- `TopKKeeper`. -/
structure TopKKeeper where
  k : Nat
  nextPos : Nat
  collated : Bool
  order : List SortKey
  items : Array TopKItem

/-- The comparison by the keys alone. -/
def cmpByKey (order : List SortKey) (collated : Bool) (a b : List (Option Bytes) × List Value) :
    Ordering :=
  if collated then cmpDecoratedParts a.2 b.2 order a.1 b.1 else cmpRowsByOrder a.2 b.2 order

/-- The sort keys of a row, if there are any to make. -/
def keyed (order : List SortKey) (collated : Bool) (row : List Value) :
    Except Failure (List (Option Bytes) × List Value) :=
  (if collated then collationKeysForRow row order else .ok []).map fun keys => (keys, row)

namespace TopKKeeper

/-- `TopKKeeper::new`. -/
def new (k : Int) (order : List SortKey) (collated : Bool) : TopKKeeper :=
  ⟨if 0 ≤ k then k.toNat else 2 ^ 64 - 1, 0, collated, order, #[]⟩

/-- `TopKKeeper::cmp`. -/
def cmp (t : TopKKeeper) (a b : TopKItem) : Ordering :=
  (cmpByKey t.order t.collated (a.keys, a.row) (b.keys, b.row)).then (compare a.pos b.pos)

/-- `TopKKeeper::push`, of a row whose keys have been made. -/
def pushKeyed (t : TopKKeeper) (d : List (Option Bytes) × List Value) : TopKKeeper :=
  { t with nextPos := t.nextPos + 1, items := Heap.push t.cmp t.k t.items ⟨d.1, d.2, t.nextPos⟩ }

/-- `TopKKeeper::push`. -/
def push (t : TopKKeeper) (row : List Value) : Except Failure TopKKeeper :=
  (keyed t.order t.collated row).map t.pushKeyed

/-- `TopKKeeper::finish`. -/
def finish (t : TopKKeeper) : List (List Value) := (stableSort t.cmp t.items.toList).map TopKItem.row

/-- The loop of `top_k_rows`. -/
def pushAll (t : TopKKeeper) : List (List Value) → Except Failure TopKKeeper
  | [] => .ok t
  | row :: rows => do
    let t ← t.push row
    t.pushAll rows

end TopKKeeper

/-- `top_k_rows`. -/
def topKRows (rows : List (List Value)) (order : List SortKey) (k : Int) :
    Except Failure (List (List Value)) := do
  let t ← (TopKKeeper.new k order (order.any (·.coll.isSome))).pushAll rows
  return t.finish

/-- Pushes of rows whose keys have all been made. -/
theorem pushAll_eq (rows : List (List Value)) (t : TopKKeeper) :
    t.pushAll rows = (rows.mapM (keyed t.order t.collated)).map (List.foldl TopKKeeper.pushKeyed t) := by
  induction rows generalizing t with
  | nil => rfl
  | cons row rows ih =>
    rw [TopKKeeper.pushAll, TopKKeeper.push, List.mapM_cons]
    cases hkeyed : keyed t.order t.collated row with
    | error e => rfl
    | ok d =>
      have hrest := ih (t.pushKeyed d)
      have hsame : keyed (t.pushKeyed d).order (t.pushKeyed d).collated = keyed t.order t.collated := rfl
      rw [hsame] at hrest
      simp only [Except.map, bind, Except.bind, hrest]
      cases rows.mapM (keyed t.order t.collated) with
      | error e => rfl
      | ok ds => rfl

/-- The sort of rows whose keys have all been made. -/
theorem eagerSort_keyed (rows : List (List Value)) (order : List SortKey) :
    eagerSort order rows = (rows.mapM (keyed order (order.any (·.coll.isSome)))).map fun ds =>
      (stableSort (cmpByKey order (order.any (·.coll.isSome))) ds).map Prod.snd := by
  unfold eagerSort
  cases order.any (·.coll.isSome) with
  | true =>
    rw [if_pos rfl, sortRowsCollated]
    have hkeyed : keyed order true = decorate order := rfl
    rw [hkeyed]
    cases rows.mapM (decorate order) with
    | error e => rfl
    | ok ds => rfl
  | false =>
    rw [if_neg Bool.false_ne_true, sortRows]
    have hkeyed : rows.mapM (keyed order false) = .ok (rows.map fun row => ([], row)) := by
      induction rows with
      | nil => rfl
      | cons row rows ih =>
        rw [List.mapM_cons, ih]
        rfl
    rw [hkeyed]
    have hsort := List.map_mergeSort (l := rows) (f := fun row => (([] : List (Option Bytes)), row))
      (s := fun a b => (cmpByKey order false a b).isLE)
      (r := fun a b => (cmpRowsByOrder a b order).isLE) fun _ _ _ _ => rfl
    simp only [Except.map, stableSort]
    rw [← hsort, List.map_map]
    exact (congrArg Except.ok (List.map_id _)).symm

/-- The items of rows that arrive from a position on. -/
def itemsFrom (pos : Nat) : List (List (Option Bytes) × List Value) → List TopKItem
  | [] => []
  | d :: ds => ⟨d.1, d.2, pos⟩ :: itemsFrom (pos + 1) ds

/-- The rows of the items. -/
def TopKItem.keyedRow (item : TopKItem) : List (Option Bytes) × List Value := (item.keys, item.row)

theorem map_itemsFrom (ds : List (List (Option Bytes) × List Value)) (pos : ℕ) :
    (itemsFrom pos ds).map TopKItem.keyedRow = ds := by
  induction ds generalizing pos with
  | nil => rfl
  | cons d ds ih => rw [itemsFrom, List.map_cons, ih]; rfl

theorem pos_itemsFrom {ds : List (List (Option Bytes) × List Value)} {pos : ℕ} :
    ∀ item ∈ itemsFrom pos ds, pos ≤ item.pos := by
  induction ds generalizing pos with
  | nil => exact fun _ h => by cases h
  | cons d ds ih =>
    intro item h
    cases h with
    | head => exact le_rfl
    | tail _ h => exact (Nat.le_succ pos).trans (ih item h)

theorem pairwise_itemsFrom (ds : List (List (Option Bytes) × List Value)) (pos : ℕ) :
    (itemsFrom pos ds).Pairwise fun a b => a.pos < b.pos := by
  induction ds generalizing pos with
  | nil => exact .nil
  | cons d ds ih => exact .cons (fun item h => pos_itemsFrom item h) (ih (pos + 1))

theorem foldl_pushKeyed (t : TopKKeeper) (ds : List (List (Option Bytes) × List Value)) :
    ds.foldl TopKKeeper.pushKeyed t =
      { t with nextPos := t.nextPos + ds.length,
               items := Heap.pushAll t.cmp t.k t.items (itemsFrom t.nextPos ds) } := by
  induction ds generalizing t with
  | nil => rfl
  | cons d ds ih =>
    rw [List.foldl_cons, ih, itemsFrom]
    have hcmp : (t.pushKeyed d).cmp = t.cmp := rfl
    rw [hcmp, List.length_cons, Nat.add_comm ds.length 1, ← Nat.add_assoc]
    rfl

/-- Rows of the types of their slots, with the sort keys that they have. -/
def Keyed (types : Nat → ColType) (order : List SortKey) (collated : Bool)
    (d : List (Option Bytes) × List Value) : Prop :=
  RowTyped types order d.2 ∧ keyed order collated d.2 = .ok d

theorem totalOn_cmpByKey (types : ℕ → ColType) (order : List SortKey) :
    TotalOn (Keyed types order (order.any (·.coll.isSome)))
      (cmpByKey order (order.any (·.coll.isSome))) := by
  have horder := (totalOn_orderCmp types order).comap
    (Prod.snd : List (Option Bytes) × List Value → List Value)
  refine (horder.mono fun d hd => hd.1).congr fun a b ha hb => ?_
  have ha := ha.2
  have hb := hb.2
  cases hany : order.any (·.coll.isSome) with
  | true =>
    rw [hany] at ha hb
    obtain ⟨akeys, hakeys, ha⟩ := map_eq_ok.mp ha
    obtain ⟨bkeys, hbkeys, hb⟩ := map_eq_ok.mp hb
    rw [← ha, ← hb]
    exact cmpDecoratedParts_eq hakeys hbkeys
  | false =>
    refine cmpRowsByOrder_eq (fun key hkey => ?_) _ _
    have hnone := List.any_eq_false.mp hany key hkey
    exact Option.not_isSome_iff_eq_none.mp hnone

/-- What is kept of rows whose keys have been made is what their sort begins with. -/
theorem finish_foldl (types : ℕ → ColType) (order : List SortKey) {k : ℤ} (hk : 0 ≤ k)
    {ds : List (List (Option Bytes) × List Value)}
    (hds : ∀ d ∈ ds, Keyed types order (order.any (·.coll.isSome)) d) :
    (ds.foldl TopKKeeper.pushKeyed (.new k order (order.any (·.coll.isSome)))).finish =
      ((stableSort (cmpByKey order (order.any (·.coll.isSome))) ds).map Prod.snd).take k.toNat := by
  have hbyKey := totalOn_cmpByKey types order
  generalize order.any (·.coll.isSome) = collated at hds hbyKey ⊢
  have hcmp : TotalOn (fun item : TopKItem => Keyed types order collated item.keyedRow)
      (TopKKeeper.new k order collated).cmp :=
    (hbyKey.comap TopKItem.keyedRow).andThen (totalOn_compare TopKItem.pos)
  have hitems : ∀ item ∈ itemsFrom 0 ds, Keyed types order collated item.keyedRow := by
    intro item hitem
    have hrow := List.mem_map_of_mem (f := TopKItem.keyedRow) hitem
    rw [map_itemsFrom] at hrow
    exact hds _ hrow
  have harrive := pairwise_itemsFrom ds 0
  have hpos : ∀ x ∈ itemsFrom 0 ds, ∀ y ∈ itemsFrom 0 ds,
      (TopKKeeper.new k order collated).cmp x y = .eq → x = y := by
    intro x hx y hy heq
    rw [TopKKeeper.cmp, Ordering.then_eq_eq, compare_eq_iff_eq] at heq
    have hnodup : ((itemsFrom 0 ds).map TopKItem.pos).Nodup :=
      List.pairwise_map.mpr (harrive.imp Nat.ne_of_lt)
    exact List.inj_on_of_nodup_map hnodup hx hy heq.2
  obtain ⟨rest, hselects⟩ := (Heap.selects_nil k.toNat).pushAll hcmp (by rwa [List.nil_append])
  rw [List.nil_append] at hselects
  have hsorted := hselects.sorted hcmp hitems hpos
  have hk' : (TopKKeeper.new k order collated).k = k.toNat := if_pos hk
  have htie : stableSort (TopKKeeper.new k order collated).cmp (itemsFrom 0 ds) =
      stableSort (fun a b : TopKItem => cmpByKey order collated a.keyedRow b.keyedRow) (itemsFrom 0 ds) := by
    refine eq_stableSort_of_tie (hbyKey.comap TopKItem.keyedRow) (fun a b => Nat.lt_asymm) hitems
      (perm_stableSort _) harrive ?_
    have hnodup : (stableSort (TopKKeeper.new k order collated).cmp (itemsFrom 0 ds)).Nodup := by
      refine (perm_stableSort _).nodup_iff.mpr (harrive.imp fun hlt heq => ?_)
      exact absurd (heq ▸ hlt) (lt_irrefl _)
    refine ((pairwise_stableSort hcmp hitems).and hnodup).imp_of_mem fun {a b} ha hb hab => ?_
    have ha := (perm_stableSort _).mem_iff.mp ha
    have hb := (perm_stableSort _).mem_iff.mp hb
    have hlt : (TopKKeeper.new k order collated).cmp a b = .lt := by
      cases hcase : (TopKKeeper.new k order collated).cmp a b with
      | lt => rfl
      | eq => exact absurd (hpos a ha b hb hcase) hab.2
      | gt => exact absurd hcase hab.1
    rwa [TopKKeeper.cmp, Ordering.then_eq_lt, compare_lt_iff_lt] at hlt
  have hback := List.map_mergeSort (l := itemsFrom 0 ds) (f := TopKItem.keyedRow)
    (s := fun a b => (cmpByKey order collated a b).isLE)
    (r := fun a b => (cmpByKey order collated a.keyedRow b.keyedRow).isLE) fun _ _ _ _ => rfl
  rw [map_itemsFrom] at hback
  rw [foldl_pushKeyed, TopKKeeper.finish]
  calc (stableSort (TopKKeeper.new k order collated).cmp
        (Heap.pushAll (TopKKeeper.new k order collated).cmp (TopKKeeper.new k order collated).k #[]
          (itemsFrom 0 ds)).toList).map TopKItem.row
      = ((stableSort (TopKKeeper.new k order collated).cmp (itemsFrom 0 ds)).take k.toNat).map
          TopKItem.row := by rw [hk', hsorted]
    _ = (((stableSort (fun a b : TopKItem => cmpByKey order collated a.keyedRow b.keyedRow)
          (itemsFrom 0 ds)).map TopKItem.keyedRow).map Prod.snd).take k.toNat := by
        rw [htie, List.map_take, List.map_map]
        rfl
    _ = ((stableSort (cmpByKey order collated) ds).map Prod.snd).take k.toNat := by
        rw [stableSort, hback]
        rfl

/-- The rows that are kept of those pushed are the first `k` of their stable sort, and an error that
    the sort raises is raised in the same way. -/
theorem topK_eq_take_sort (types : ℕ → ColType) (order : List SortKey) (rows : List (List Value))
    (hrows : ∀ row ∈ rows, RowTyped types order row) (k : ℤ) (hk : 0 ≤ k) :
    topKRows rows order k = (eagerSort order rows).map (List.take k.toNat) := by
  rw [topKRows, pushAll_eq, eagerSort_keyed]
  have hkeyed : (TopKKeeper.new k order (order.any (·.coll.isSome))).order = order ∧
      (TopKKeeper.new k order (order.any (·.coll.isSome))).collated = order.any (·.coll.isSome) :=
    ⟨rfl, rfl⟩
  rw [hkeyed.1, hkeyed.2]
  cases hds : rows.mapM (keyed order (order.any (·.coll.isSome))) with
  | error e => rfl
  | ok ds =>
    refine congrArg Except.ok (finish_foldl types order hk fun d hd => ?_)
    obtain ⟨row, hrow, hd⟩ := (mem_of_forall₂ (forall₂_of_mapM hds)).1 d hd
    obtain ⟨keys, hkeys, rfl⟩ := map_eq_ok.mp hd
    exact ⟨hrows row hrow, hd⟩

/-- Two of three rows, by a number in descending order and then by a text under a collation in which all
    texts have the same weights. -/
theorem topK_eq_take_sort_tie :
    topKRows [[.int 1, .text [0x62]], [.null, .text [0x61]], [.int 1, .text [0x61]]]
        [⟨0, true, false, none⟩, ⟨1, false, true, some ⟨"flat", ⟨fun _ => .ok []⟩⟩⟩] 2 =
      (eagerSort [⟨0, true, false, none⟩, ⟨1, false, true, some ⟨"flat", ⟨fun _ => .ok []⟩⟩⟩]
        [[.int 1, .text [0x62]], [.null, .text [0x61]], [.int 1, .text [0x61]]]).map (List.take 2) := by
  have hnum : ∀ n, OrNull (OfType (.scalar .int64)) (.int n) := fun _ => .inr trivial
  have htext : ∀ s, OrNull (OfType (.scalar .text)) (.text s) := fun _ => .inr trivial
  refine topK_eq_take_sort (fun i => if i = 0 then .scalar .int64 else .scalar .text) _ _ ?_ 2 (by decide)
  intro row hrow key hkey
  simp only [List.mem_cons, List.not_mem_nil, or_false] at hrow hkey
  rcases hrow with rfl | rfl | rfl <;> rcases hkey with rfl | rfl
  · exact hnum 1
  · exact htext _
  · exact .inl rfl
  · exact htext _
  · exact hnum 1
  · exact htext _

end Jed.Sorts
