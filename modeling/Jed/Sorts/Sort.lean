import Jed.Key.Collated
import Jed.Lib.Results
import Jed.Lib.StableSort

/-!
# The sort of a query

`ORDER BY` over rows in memory (`executor/window.rs:13-28`, `1036-1204`): a stable sort by the keys in
turn, a collated key by sort keys made once for each row.
-/

namespace Jed.Sorts

open Key KeyCodes Results

/-- `Collation`: the name it goes by, and its table. -/
structure NamedCollation where
  name : String
  table : Table

/-- `SortKey`: a slot of the row, and how it is ordered. -/
structure SortKey where
  slot : Nat
  descending : Bool
  nullsFirst : Bool
  coll : Option NamedCollation

/-- The value of a key, whose slot the row has. -/
def slotValue (row : List Value) (k : SortKey) : Value := row.getD k.slot .null

/-- `collation_sort_key` (`resolve_func.rs:7549-7555`). -/
def collationSortKey (c : NamedCollation) : Value → Except Failure (Option Bytes)
  | .text s => (sortKey c.table s).map some
  | .array dims lbounds elements =>
    (encodeArrayKey .text dims lbounds elements (some c.table.collation)).map some
  | _ => .ok none

/-- `cmp_rows_by_order`. -/
def cmpRowsByOrder (a b : List Value) : List SortKey → Ordering
  | [] => .eq
  | k :: order =>
    (keyCmp (slotValue a k) (slotValue b k) k.descending k.nullsFirst).then
      (cmpRowsByOrder a b order)

/-- `sort_rows`. -/
def sortRows (order : List SortKey) (rows : List (List Value)) : List (List Value) :=
  rows.mergeSort fun a b => (cmpRowsByOrder a b order).isLE

/-- `collation_keys_for_row`. -/
def collationKeysForRow (row : List Value) : List SortKey → Except Failure (List (Option Bytes))
  | [] => .ok []
  | k :: order =>
    match k.coll with
    | none => collationKeysForRow row order
    | some c => do
      let key ← collationSortKey c (slotValue row k)
      let keys ← collationKeysForRow row order
      return key :: keys

/-- Two sort keys, where there are any. -/
def cmpSortKeys (x y : Option Bytes) (descending nullsFirst : Bool) : Ordering :=
  match x, y with
  | none, none => .eq
  | none, some _ => if nullsFirst then .lt else .gt
  | some _, none => if nullsFirst then .gt else .lt
  | some x, some y => if descending then (lexCompare x y).swap else lexCompare x y

/-- `cmp_decorated_parts`, `akeys` and `bkeys` being the sort keys not yet used. -/
def cmpDecoratedParts (arow brow : List Value) :
    List SortKey → (akeys bkeys : List (Option Bytes)) → Ordering
  | [], _, _ => .eq
  | k :: order, akeys, bkeys =>
    match k.coll with
    | some _ =>
      (cmpSortKeys (akeys.headD none) (bkeys.headD none) k.descending k.nullsFirst).then
        (cmpDecoratedParts arow brow order akeys.tail bkeys.tail)
    | none =>
      (keyCmp (slotValue arow k) (slotValue brow k) k.descending k.nullsFirst).then
        (cmpDecoratedParts arow brow order akeys bkeys)

/-- A row with its sort keys. -/
def decorate (order : List SortKey) (row : List Value) :
    Except Failure (List (Option Bytes) × List Value) :=
  (collationKeysForRow row order).map fun keys => (keys, row)

/-- `sort_rows_collated`. -/
def sortRowsCollated (order : List SortKey) (rows : List (List Value)) :
    Except Failure (List (List Value)) := do
  let decorated ← rows.mapM (decorate order)
  return (decorated.mergeSort fun a b => (cmpDecoratedParts a.2 b.2 order a.1 b.1).isLE).map Prod.snd

/-- The sort of an `ORDER BY`. -/
def eagerSort (order : List SortKey) (rows : List (List Value)) : Except Failure (List (List Value)) :=
  if order.any (·.coll.isSome) then sortRowsCollated order rows else .ok (sortRows order rows)

/-- The order of two values by a key. -/
def SortKey.cmp (k : SortKey) (a b : Value) : Ordering :=
  match k.coll with
  | none => keyCmp a b k.descending k.nullsFirst
  | some c =>
    cmpSortKeys ((collationSortKey c a).toOption.getD none) ((collationSortKey c b).toOption.getD none)
      k.descending k.nullsFirst

/-- The order of two rows by the keys in turn. -/
def orderCmp (a b : List Value) : List SortKey → Ordering
  | [] => .eq
  | k :: order => (k.cmp (slotValue a k) (slotValue b k)).then (orderCmp a b order)

variable {order : List SortKey}

theorem cmpRowsByOrder_eq (h : ∀ k ∈ order, k.coll = none) (a b : List Value) :
    cmpRowsByOrder a b order = orderCmp a b order := by
  induction order with
  | nil => rfl
  | cons k order ih =>
    rw [cmpRowsByOrder, orderCmp, ih fun k hk => h k (List.mem_cons_of_mem _ hk), SortKey.cmp,
      h k List.mem_cons_self]

/-- Decorated rows are ordered as their values are. -/
theorem cmpDecoratedParts_eq {a b : List Value} {akeys bkeys : List (Option Bytes)}
    (ha : collationKeysForRow a order = .ok akeys)
    (hb : collationKeysForRow b order = .ok bkeys) :
    cmpDecoratedParts a b order akeys bkeys = orderCmp a b order := by
  induction order generalizing akeys bkeys with
  | nil => rfl
  | cons k order ih =>
    rw [collationKeysForRow] at ha hb
    rw [cmpDecoratedParts, orderCmp, SortKey.cmp]
    cases hcoll : k.coll with
    | none =>
      rw [hcoll] at ha hb
      simp only [ih ha hb]
    | some c =>
      rw [hcoll] at ha hb
      obtain ⟨x, hx, ha⟩ := bind_eq_ok.mp ha
      obtain ⟨xs, hxs, ha⟩ := bind_eq_ok.mp ha
      obtain ⟨y, hy, hb⟩ := bind_eq_ok.mp hb
      obtain ⟨ys, hys, hb⟩ := bind_eq_ok.mp hb
      cases ha
      cases hb
      simp only [hx, hy, List.headD_cons, List.tail_cons, ih hxs hys]
      rfl

theorem decorate_ok {row : List Value} {d : List (Option Bytes) × List Value}
    (h : decorate order row = .ok d) : d.2 = row ∧ collationKeysForRow row order = .ok d.1 := by
  obtain ⟨keys, hkeys, rfl⟩ := map_eq_ok.mp h
  exact ⟨rfl, hkeys⟩

theorem map_snd_of_decorated {rows : List (List Value)} {decorated : List (List (Option Bytes) × List Value)}
    (h : List.Forall₂ (fun row d => decorate order row = .ok d) rows decorated) :
    decorated.map Prod.snd = rows := by
  induction h with
  | nil => rfl
  | cons hd _ ih => rw [List.map_cons, ih, (decorate_ok hd).1]

/-- The keys of a row that have been made. -/
theorem collationKeysForRow_ok {row : List Value} {keys : List (Option Bytes)}
    (h : collationKeysForRow row order = .ok keys) :
    ∀ k ∈ order, ∀ c, k.coll = some c → ∃ key, collationSortKey c (slotValue row k) = .ok key := by
  induction order generalizing keys with
  | nil => exact fun _ hk => by cases hk
  | cons k order ih =>
    rw [collationKeysForRow] at h
    intro k' hk' c hc
    cases hcoll : k.coll with
    | none =>
      rw [hcoll] at h
      cases hk' with
      | head =>
        rw [hcoll] at hc
        cases hc
      | tail _ hk' => exact ih h k' hk' c hc
    | some c' =>
      rw [hcoll] at h
      obtain ⟨x, hx, h⟩ := bind_eq_ok.mp h
      obtain ⟨xs, hxs, -⟩ := bind_eq_ok.mp h
      cases hk' with
      | head =>
        cases hcoll.symm.trans hc
        exact ⟨x, hx⟩
      | tail _ hk' => exact ih hxs k' hk' c hc

/-- The sort is the stable sort by the keys, which were all made. -/
theorem eagerSort_eq {rows out : List (List Value)} (h : eagerSort order rows = .ok out) :
    out = rows.mergeSort (fun a b => (orderCmp a b order).isLE) ∧
      ∀ row ∈ rows, ∀ k ∈ order, ∀ c, k.coll = some c →
        ∃ key, collationSortKey c (slotValue row k) = .ok key := by
  unfold eagerSort at h
  split at h
  case isTrue =>
    obtain ⟨decorated, hdecorated, h⟩ := bind_eq_ok.mp h
    cases h
    have hall := forall₂_of_mapM hdecorated
    have hrows := map_snd_of_decorated hall
    have heach := mem_of_forall₂ hall
    have hkeys : ∀ d ∈ decorated, collationKeysForRow d.2 order = .ok d.1 := by
      intro d hd
      obtain ⟨row, -, hrow⟩ := heach.1 d hd
      obtain ⟨heq, hkeys⟩ := decorate_ok hrow
      rwa [heq]
    refine ⟨?_, fun row hrow k hk c hc => ?_⟩
    · rw [List.map_mergeSort fun a ha b hb => ?_, hrows]
      rw [cmpDecoratedParts_eq (hkeys a ha) (hkeys b hb)]
    · obtain ⟨d, -, hd⟩ := heach.2 row hrow
      exact collationKeysForRow_ok (decorate_ok hd).2 k hk c hc
  case isFalse hnone =>
    cases h
    have hcolls : ∀ k ∈ order, k.coll = none := by
      intro k hk
      by_contra hne
      exact hnone (List.any_eq_true.mpr ⟨k, hk, Option.isSome_iff_ne_none.mpr hne⟩)
    refine ⟨?_, fun row _ k hk c hc => ?_⟩
    · unfold sortRows
      simp only [cmpRowsByOrder_eq hcolls]
    · rw [hcolls k hk] at hc
      cases hc

/-- A collation that orders letters before their case. -/
def foldedCase : NamedCollation where
  name := "folded"
  table := ⟨fun s => .ok (s.map fun b =>
    ⟨⟨b.toNat % 32, by omega⟩, ⟨0, by decide⟩, ⟨b.toNat / 32 + 1, by have := b.toNat_lt; omega⟩⟩)⟩

/-- `ORDER BY` a text under the collation: `a` comes before `B`, and the key of each was made. -/
theorem eagerSort_eq_collated : ∃ out,
    eagerSort [⟨0, false, false, some foldedCase⟩] [[.text [66]], [.text [97]]] = .ok out ∧
    out = [[Value.text [66]], [.text [97]]].mergeSort
      (fun a b => (orderCmp a b [⟨0, false, false, some foldedCase⟩]).isLE) ∧
    orderCmp [.text [97]] [.text [66]] [⟨0, false, false, some foldedCase⟩] = .lt ∧
    ∀ row ∈ [[Value.text [66]], [.text [97]]], ∃ key,
      collationSortKey foldedCase (slotValue row ⟨0, false, false, some foldedCase⟩) = .ok key := by
  refine ⟨_, rfl, (eagerSort_eq rfl).1, by decide, fun row hrow => ?_⟩
  exact (eagerSort_eq rfl).2 row hrow _ (List.mem_singleton_self _) foldedCase rfl

end Jed.Sorts
