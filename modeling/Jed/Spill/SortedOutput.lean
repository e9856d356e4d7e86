import Jed.Spill.Sorter

/-!
# The external merge sort is the stable sort

The runs of a sorter hold the stable sorts of consecutive pieces of the input, whatever has been
merged so far, and the rows in memory follow the last piece. The merge puts the rows of the earliest
source first among equals, so what comes out is the stable sort of the whole input.
-/

namespace Jed.Spill

open StableSort

variable {V : Type} (env : Rows V)

/-- The order of the values, in every direction and with NULL on either side. -/
def TotalPreorder : Prop :=
  ∀ descending nullsFirst, Std.TransCmp fun a b => env.keyCmp a b descending nullsFirst

/-- `read_row` inverts `write_row` on a row, whatever follows it. -/
def ReadsBack (row : Row V) : Prop :=
  ∀ rest, env.readRow (env.writeRow row ++ rest) = some (row, rest)

variable {env}

/-- `read_value` of a boolean, for each value of a row. -/
def readBools : Nat → Bytes → Option (Row Bool × Bytes)
  | 0, bytes => some ([], bytes)
  | n + 1, 2 :: b :: bytes => do
    let (row, bytes) ← readBools n bytes
    return ((b != 0) :: row, bytes)
  | _, _ => none

/-- Rows of booleans, and how they are compared, weighed, written and read. -/
def boolRows : Rows Bool where
  keyCmp a b descending _ := if descending then compare b a else compare a b
  rowBytes row := 32 + 32 * row.length
  writeRow row :=
    [row.length.toUInt8, (row.length >>> 8).toUInt8, (row.length >>> 16).toUInt8,
      (row.length >>> 24).toUInt8] ++ row.flatMap fun b => [2, b.toUInt8]
  readRow
    | a :: b :: c :: d :: bytes =>
      readBools (a.toNat + (b.toNat <<< 8) + (c.toNat <<< 16) + (d.toNat <<< 24)) bytes
    | _ => none

theorem totalPreorder_boolRows : TotalPreorder boolRows := fun descending nullsFirst =>
  { eq_swap := fun {a b} => by
      revert descending nullsFirst a b
      decide
    isLE_trans := fun {a b c} => by
      revert descending nullsFirst a b c
      decide }

variable (env) in
/-- The rows a source has still to give. -/
inductive Source.Holds : Source V → List (Row V) → Prop where
  | mem (rows : List (Row V)) : Holds (.mem rows) rows
  | file {rows : List (Row V)} (h : ∀ row ∈ rows, ReadsBack env row) :
    Holds (.file (rows.map env.writeRow).flatten rows.length) rows

theorem Source.Holds.next {source : Source V} {rows : List (Row V)} (h : source.Holds env rows) :
    ∃ source', source.next env = .ok (rows.head?, source') ∧ source'.Holds env rows.tail := by
  cases h with
  | mem rows =>
    cases rows with
    | nil => exact ⟨_, rfl, .mem []⟩
    | cons row rows => exact ⟨_, rfl, .mem rows⟩
  | file h =>
    cases rows with
    | nil => exact ⟨_, rfl, .file h⟩
    | cons row rows =>
      refine ⟨_, ?_, .file fun r hr => h r (List.mem_cons_of_mem _ hr)⟩
      have hread := h row List.mem_cons_self (rows.map env.writeRow).flatten
      simp only [List.map_cons, List.flatten_cons, List.length_cons, Source.next, hread]
      rfl

theorem openFile_holds {rows : List (Row V)} (h : ∀ row ∈ rows, ReadsBack env row) :
    (Source.openFile (writeRun env rows)).Holds env rows := .file h

variable (env) in
/-- The merger has the head of each list in its heap, and a source for the rest of it. -/
structure Merging (keys : List SortKey) (ls : List (List (Row V))) (m : Merger V) : Prop where
  tails : List.Forall₂ (Source.Holds env) m.sources (ls.map List.tail)
  heads : ∀ item, item ∈ m.heap ↔
    item.keys = keys ∧ ∃ rest, ls[item.source]? = some (item.row :: rest)
  once : (m.heap.map HeapItem.source).Nodup

theorem mem_headItem {keys : List SortKey} {i : Nat} {row : Option (Row V)} {item : HeapItem V} :
    item ∈ headItem keys i row ↔ item.keys = keys ∧ item.source = i ∧ row = some item.row := by
  cases row with
  | none => simp [headItem]
  | some row =>
    cases item with
    | mk r j ks =>
      simp only [headItem, List.mem_singleton, HeapItem.mk.injEq, Option.some.injEq]
      constructor
      · rintro ⟨rfl, rfl, rfl⟩
        exact ⟨rfl, rfl, rfl⟩
      · rintro ⟨rfl, rfl, rfl⟩
        exact ⟨rfl, rfl, rfl⟩

theorem nodup_headItem (keys : List SortKey) (i : Nat) (row : Option (Row V)) :
    ((headItem keys i row).map HeapItem.source).Nodup := by
  cases row <;> simp [headItem]

/-- `prime`, the sources counted from `i`. -/
theorem prime_spec (keys : List SortKey) {sources : List (Source V)} {ls : List (List (Row V))}
    (h : List.Forall₂ (Source.Holds env) sources ls) : ∀ i, ∃ m, prime env keys i sources = .ok m ∧
      List.Forall₂ (Source.Holds env) m.sources (ls.map List.tail) ∧
      (∀ item, item ∈ m.heap ↔ item.keys = keys ∧ i ≤ item.source ∧
        ∃ rest, ls[item.source - i]? = some (item.row :: rest)) ∧
      (m.heap.map HeapItem.source).Nodup := by
  induction h with
  | nil => exact fun i => ⟨_, rfl, .nil, fun item => by simp, List.nodup_nil⟩
  | @cons source l sources ls hl _ ih =>
    intro i
    obtain ⟨source', hnext, hsource⟩ := hl.next
    obtain ⟨m, hm, htails, hheads, honce⟩ := ih (i + 1)
    refine ⟨_, by rw [prime, hnext]; simp only [Except.bind, bind, hm]; rfl,
      .cons hsource htails, fun item => ?_, ?_⟩
    · simp only [List.mem_append, mem_headItem, hheads, List.head?_eq_some_iff]
      by_cases hlt : i + 1 ≤ item.source
      · have hsucc : item.source - i = item.source - (i + 1) + 1 := by omega
        have hne : item.source ≠ i := by omega
        have hle : i ≤ item.source := by omega
        simp [hsucc, hne, hlt, hle]
      · by_cases heq : item.source = i
        · simp [heq]
        · have hle : ¬ i ≤ item.source := by omega
          simp [hlt, heq, hle]
    · rw [List.map_append]
      refine List.Nodup.append (nodup_headItem keys i _) honce fun j hj hj' => ?_
      obtain ⟨x, hx, rfl⟩ := List.mem_map.mp hj
      obtain ⟨y, hy, hxy⟩ := List.mem_map.mp hj'
      have hxi := (mem_headItem.mp hx).2.1
      have hyi := ((hheads y).mp hy).2.1
      omega

theorem merging_prime (keys : List SortKey) {sources : List (Source V)} {ls : List (List (Row V))}
    (h : List.Forall₂ (Source.Holds env) sources ls) :
    ∃ m, prime env keys 0 sources = .ok m ∧ Merging env keys ls m := by
  obtain ⟨m, hm, htails, hheads, honce⟩ := prime_spec keys h 0
  exact ⟨m, hm, htails, fun item => by simpa using hheads item, honce⟩

theorem forall₂_set {R : Source V → List (Row V) → Prop} {a : Source V} {b : List (Row V)}
    {l₁ : List (Source V)} {l₂ : List (List (Row V))} (h : List.Forall₂ R l₁ l₂) (hab : R a b) :
    ∀ i, List.Forall₂ R (l₁.set i a) (l₂.set i b) := by
  induction h with
  | nil => exact fun _ => .nil
  | cons hxy h ih =>
    intro i
    cases i with
    | zero => exact .cons hab h
    | succ i => exact .cons hxy (ih i)

theorem forall₂_getElem? {R : Source V → List (Row V) → Prop} {l₁ : List (Source V)}
    {l₂ : List (List (Row V))} (h : List.Forall₂ R l₁ l₂) {b : List (Row V)} :
    ∀ {i : Nat}, l₂[i]? = some b → ∃ a, l₁[i]? = some a ∧ R a b := by
  induction h with
  | nil =>
    intro i hb
    cases hb
  | @cons a b' _ _ hxy h ih =>
    intro i hb
    cases i with
    | zero =>
      cases hb
      exact ⟨a, rfl, hxy⟩
    | succ i => exact ih (i := i) hb

theorem length_set_front {cmp : Row V → Row V → Ordering} {ls : List (List (Row V))} {i : Nat}
    {row : Row V} {rest : List (Row V)} (hf : Front cmp ls i row rest) :
    (ls.set i rest).flatten.length + 1 = ls.flatten.length := by
  rw [Splice.set_eq hf.lt]
  conv_rhs => rw [Splice.eq_cut hf.here]
  simp only [List.flatten_append, List.flatten_cons, List.length_append, List.length_cons]
  omega

variable [Inhabited V]

theorem transCmp_cmpRows (h : TotalPreorder env) : ∀ keys, Std.TransCmp (cmpRows env keys)
  | [] => { eq_swap := rfl, isLE_trans := fun _ _ => rfl }
  | key :: keys => by
    have hrest := transCmp_cmpRows h keys
    have hkey := h key.descending key.nullsFirst
    have hfirst : Std.TransCmp fun a b : Row V =>
        env.keyCmp (a.getD key.idx default) (b.getD key.idx default) key.descending
          key.nullsFirst :=
      { eq_swap := hkey.eq_swap, isLE_trans := hkey.isLE_trans }
    exact inferInstanceAs (Std.TransCmp (compareLex _ (cmpRows env keys)))

/-- The order of the items of a merge by `keys`, the first the least. -/
def itemCmp (env : Rows V) (keys : List SortKey) (x y : HeapItem V) : Ordering :=
  (cmpRows env keys x.row y.row).then (compare x.source y.source)

theorem transCmp_itemCmp {keys : List SortKey} (h : Std.TransCmp (cmpRows env keys)) :
    Std.TransCmp (itemCmp env keys) := by
  have hrow : Std.TransCmp fun x y : HeapItem V => cmpRows env keys x.row y.row :=
    { eq_swap := h.eq_swap, isLE_trans := h.isLE_trans }
  have hsource : Std.TransCmp fun x y : HeapItem V => compare x.source y.source :=
    { eq_swap := Std.OrientedCmp.eq_swap, isLE_trans := Std.TransCmp.isLE_trans }
  exact inferInstanceAs (Std.TransCmp (compareLex _ _))

theorem popMax_eq_none {heap : List (HeapItem V)} (h : popMax env heap = none) : heap = [] := by
  cases heap with
  | nil => rfl
  | cons item heap =>
    simp only [popMax] at h
    split at h
    · cases h
    · split at h <;> cases h

/-- What is popped comes first. -/
theorem popMax_spec {keys : List SortKey} (htrans : Std.TransCmp (cmpRows env keys)) :
    ∀ {heap : List (HeapItem V)} {top : HeapItem V} {others : List (HeapItem V)},
      (∀ x ∈ heap, x.keys = keys) → popMax env heap = some (top, others) →
      heap.Perm (top :: others) ∧ ∀ x ∈ others, (itemCmp env keys top x).isLE := by
  have := transCmp_itemCmp htrans
  intro heap
  induction heap with
  | nil =>
    intro top others _ h
    cases h
  | cons item heap ih =>
    intro top others hkeys h
    have hitem := hkeys item List.mem_cons_self
    simp only [popMax] at h
    split at h
    case h_1 hnone =>
      cases h
      rw [popMax_eq_none hnone]
      exact ⟨List.Perm.refl _, fun _ hx => by cases hx⟩
    case h_2 top' others' hsome =>
      obtain ⟨hperm, hle⟩ := ih (fun x hx => hkeys x (List.mem_cons_of_mem _ hx)) hsome
      have hcmp : item.cmp env top' = (itemCmp env keys item top').swap := by
        rw [HeapItem.cmp, hitem]
        rfl
      rw [hcmp] at h
      split at h
      case isTrue hlt =>
        cases h
        refine ⟨(hperm.cons item).trans (List.Perm.swap ..), fun x hx => ?_⟩
        cases List.mem_cons.mp hx with
        | inl heq =>
          have hswap : itemCmp env keys top item = (itemCmp env keys item top).swap :=
            Std.OrientedCmp.eq_swap
          rw [heq, hswap, hlt]
          rfl
        | inr hmem => exact hle x hmem
      case isFalse hge =>
        cases h
        have hfirst : (itemCmp env keys item top').isLE := by
          cases hc : itemCmp env keys item top' with
          | lt => rfl
          | eq => rfl
          | gt => exact absurd (by rw [hc]; rfl) hge
        refine ⟨List.Perm.refl _, fun x hx => ?_⟩
        cases List.mem_cons.mp (hperm.subset hx) with
        | inl heq => rwa [heq]
        | inr hmem => exact Std.TransCmp.isLE_trans hfirst (hle x hmem)

/-- A merger gives the front of its lists. -/
theorem Merging.next {keys : List SortKey} (htrans : Std.TransCmp (cmpRows env keys))
    {ls : List (List (Row V))} {m : Merger V} (hm : Merging env keys ls m) :
    ((∀ l ∈ ls, l = []) ∧ m.next env = .ok (none, m)) ∨
      ∃ i row rest m', Front (cmpRows env keys) ls i row rest ∧
        m.next env = .ok (some row, m') ∧ Merging env keys (ls.set i rest) m' := by
  have hkeys : ∀ x ∈ m.heap, x.keys = keys := fun x hx => ((hm.heads x).mp hx).1
  rw [Merger.next]
  cases hpop : popMax env m.heap with
  | none =>
    refine .inl ⟨fun l hl => ?_, rfl⟩
    cases l with
    | nil => rfl
    | cons row rest =>
      obtain ⟨i, hi⟩ := List.mem_iff_getElem?.mp hl
      have hmem := (hm.heads ⟨row, i, keys⟩).mpr ⟨rfl, rest, hi⟩
      rw [popMax_eq_none hpop] at hmem
      cases hmem
  | some popped =>
    obtain ⟨item, others⟩ := popped
    obtain ⟨hperm, hfirst⟩ := popMax_spec htrans hkeys hpop
    obtain ⟨hitem, rest, hrow⟩ := (hm.heads item).mp (hperm.symm.subset List.mem_cons_self)
    have hlt : item.source < ls.length := (List.getElem?_eq_some_iff.mp hrow).1
    have honce : item.source ∉ others.map HeapItem.source ∧
        (others.map HeapItem.source).Nodup := by
      have h := (hperm.map HeapItem.source).nodup_iff.mp hm.once
      exact List.nodup_cons.mp h
    obtain ⟨source, hsource, hholds⟩ := forall₂_getElem? hm.tails
      (i := item.source) (b := rest) (by rw [List.getElem?_map, hrow]; rfl)
    obtain ⟨source', hnext, hholds'⟩ := hholds.next
    refine .inr ⟨item.source, item.row, rest,
      ⟨m.sources.set item.source source', headItem item.keys item.source rest.head? ++ others⟩,
      ⟨hrow, fun j row more hj => ?_⟩, ?_, ?_, fun x => ?_, ?_⟩
    · have hmem := (hm.heads ⟨row, j, keys⟩).mpr ⟨rfl, more, hj⟩
      cases List.mem_cons.mp (hperm.subset hmem) with
      | inl heq =>
        rw [← heq]
        exact .inr ⟨Std.ReflCmp.compare_self, le_rfl⟩
      | inr hmem =>
        have hle := hfirst _ hmem
        simp only [itemCmp] at hle
        cases hc : cmpRows env keys item.row row with
        | lt => exact .inl rfl
        | eq =>
          rw [hc] at hle
          exact .inr ⟨rfl, Nat.isLE_compare.mp hle⟩
        | gt =>
          rw [hc] at hle
          cases hle
    · simp only [hsource, hnext]
      rfl
    · rw [List.map_set]
      exact forall₂_set hm.tails hholds' _
    · -- the item popped is the only one of its source
      have hothers : x ∈ others ↔ x ∈ m.heap ∧ x.source ≠ item.source := by
        rw [hperm.mem_iff, List.mem_cons]
        constructor
        · intro hx
          refine ⟨.inr hx, fun heq => honce.1 ?_⟩
          rw [← heq]
          exact List.mem_map_of_mem hx
        · rintro ⟨heq | hx, hne⟩
          · rw [heq] at hne
            exact absurd rfl hne
          · exact hx
      simp only [List.mem_append, mem_headItem, hothers, hm.heads, hitem, List.head?_eq_some_iff]
      by_cases heq : x.source = item.source
      · simp [heq, hlt]
      · simp [heq, List.getElem?_set_ne (Ne.symm heq)]
    · rw [List.map_append]
      refine List.Nodup.append (nodup_headItem _ _ _) honce.2 fun j hj hj' => ?_
      obtain ⟨x, hx, rfl⟩ := List.mem_map.mp hj
      rw [(mem_headItem.mp hx).2.1] at hj'
      exact honce.1 hj'

/-- A merge is over within one call more than there are rows. -/
theorem Merging.drain {keys : List SortKey} (htrans : Std.TransCmp (cmpRows env keys)) :
    ∀ {bound : Nat} {ls : List (List (Row V))} {m : Merger V}, Merging env keys ls m →
      ls.flatten.length < bound →
      ∃ out, m.drain env bound = .ok out ∧ Merges (cmpRows env keys) ls out := by
  intro bound
  induction bound with
  | zero =>
    intro ls m _ hlt
    cases hlt
  | succ bound ih =>
    intro ls m hm hlt
    rw [Merger.drain]
    cases hm.next htrans with
    | inl hdone =>
      rw [hdone.2]
      exact ⟨[], rfl, .done hdone.1⟩
    | inr hnext =>
      obtain ⟨i, row, rest, m', hf, hnext, hm'⟩ := hnext
      have hlen := length_set_front hf
      obtain ⟨out, hout, hmerges⟩ := ih hm' (by omega)
      rw [hnext]
      exact ⟨row :: out, by simp only [bind, Except.bind, hout]; rfl, .next hf hmerges⟩

/-- What the calls of `next` return while a merge goes on. -/
theorem Merging.nexts {keys : List SortKey} (htrans : Std.TransCmp (cmpRows env keys)) :
    ∀ {n : Nat} {ls : List (List (Row V))} {m : Merger V}, Merging env keys ls m →
      (∀ l ∈ ls, Sorted (cmpRows env keys) l) →
      SortedRows.nexts env n (.merge m) =
        .ok ((List.range n).map fun i => (stableSort (cmpRows env keys) ls.flatten)[i]?) := by
  intro n
  induction n with
  | zero => exact fun _ _ => rfl
  | succ n ih =>
    intro ls m hm hs
    rw [SortedRows.nexts, SortedRows.next, List.range_succ_eq_map]
    cases hm.next htrans with
    | inl hdone =>
      have hnil : ls.flatten = [] := List.flatten_eq_nil_iff.mpr hdone.1
      have hrest := ih hm hs
      rw [hnil] at hrest ⊢
      simp only [hdone.2, bind, Except.bind, pure, Except.pure, hrest]
      simp [stableSort, List.map_const', Function.comp_def]
    | inr hnext =>
      obtain ⟨i, row, rest, m', hf, hnext, hm'⟩ := hnext
      have hs' := sorted_rest hf hs
      obtain ⟨out, -, hout⟩ := hm'.drain htrans (Nat.lt_succ_self _)
      have hall := (Merges.next hf hout).eq_stableSort hs
      rw [hout.eq_stableSort hs'] at hall
      simp only [hnext, bind, Except.bind, pure, Except.pure, ih hm' hs', ← hall]
      simp [Function.comp_def]

/-- The file two runs are merged into. -/
theorem mergePairToFile_spec {keys : List SortKey} (htrans : Std.TransCmp (cmpRows env keys))
    {a b : List (Row V)} (ha : ∀ row ∈ a, ReadsBack env row) (hb : ∀ row ∈ b, ReadsBack env row) :
    mergePairToFile env
        [.openFile (writeRun env (stableSort (cmpRows env keys) a)),
          .openFile (writeRun env (stableSort (cmpRows env keys) b))]
        (a.length + b.length) keys =
      .ok (writeRun env (stableSort (cmpRows env keys) (a ++ b))) := by
  have hsort : ∀ {l : List (Row V)}, (∀ row ∈ l, ReadsBack env row) →
      ∀ row ∈ stableSort (cmpRows env keys) l, ReadsBack env row :=
    fun h row hrow => h row ((perm_stableSort _).subset hrow)
  obtain ⟨m, hprime, hm⟩ := merging_prime keys
    (.cons (openFile_holds (hsort ha)) (.cons (openFile_holds (hsort hb)) .nil))
  have hbound : ([stableSort (cmpRows env keys) a, stableSort (cmpRows env keys) b].flatten).length <
      a.length + b.length + 1 := by
    simp [(perm_stableSort _).length_eq]
  obtain ⟨out, hdrain, hout⟩ := hm.drain htrans hbound
  have heq : out = stableSort (cmpRows env keys) (a ++ b) := by
    have hflat : stableSort (cmpRows env keys)
        ([a, b].map (stableSort (cmpRows env keys))).flatten =
          stableSort (cmpRows env keys) [a, b].flatten := stableSort_flatten [a, b]
    rw [List.flatten_cons, List.flatten_cons, List.flatten_nil, List.append_nil] at hflat
    rw [← hflat]
    refine hout.eq_stableSort fun l hl => ?_
    simp only [List.mem_cons, List.not_mem_nil, or_false] at hl
    rcases hl with rfl | rfl <;> exact sorted_stableSort _
  rw [mergePairToFile, hprime]
  simp only [bind, Except.bind, hdrain, heq, pure, Except.pure, writeRun,
    (perm_stableSort _).length_eq, List.length_append]

/-- The same sorter, apart from its runs. -/
structure Sorter.Alike (s s' : Sorter V) : Prop where
  keys : s'.keys = s.keys
  budget : s'.budget = s.budget
  spill : s'.spill = s.spill

omit [Inhabited V] in
theorem Sorter.Alike.rfl {s : Sorter V} : s.Alike s := ⟨by rfl, by rfl, by rfl⟩

omit [Inhabited V] in
theorem Sorter.Alike.trans {s₁ s₂ s₃ : Sorter V} (h : s₁.Alike s₂) (h' : s₂.Alike s₃) :
    s₁.Alike s₃ :=
  ⟨h'.keys.trans h.keys, h'.budget.trans h.budget, h'.spill.trans h.spill⟩

omit [Inhabited V] in
theorem Sorter.Alike.canSpill {s s' : Sorter V} (h : s.Alike s') : s'.canSpill = s.canSpill := by
  rw [Sorter.canSpill, Sorter.canSpill, h.budget, h.spill]

variable (env) in
/-- The runs are the stable sorts of consecutive chunks of the input. -/
structure Sorter.Keeps (s : Sorter V) (chunks : List (List (Row V))) : Prop where
  runs : s.runs = chunks.map fun c => writeRun env (stableSort (cmpRows env s.keys) c)
  levels : s.runLevels.length = s.runs.length
  readsBack : ∀ row ∈ chunks.flatten, ReadsBack env row

omit [Inhabited V] in
theorem Sorter.lastLevel_eq_some {s : Sorter V} {level : Nat} (h : s.lastLevel = some level) :
    2 ≤ s.runLevels.length := by
  simp only [Sorter.lastLevel] at h
  split at h
  · split at h
    case isTrue h2 => exact h2.1
    case isFalse => cases h
  · cases h

/-- A turn of the compaction joins the last two chunks. -/
theorem Sorter.Keeps.compactOnce {s : Sorter V} (htrans : Std.TransCmp (cmpRows env s.keys))
    {chunks : List (List (Row V))} (hs : s.Keeps env chunks) (h2 : 2 ≤ s.runLevels.length)
    (level : Nat) :
    ∃ s' chunks', s.compactOnce env level = .ok s' ∧ s'.Keeps env chunks' ∧
      chunks'.flatten = chunks.flatten ∧ s'.buf = s.buf ∧ s.Alike s' ∧
      s'.runLevels.length + 1 = s.runLevels.length := by
  have hlen : s.runLevels.length = chunks.length := by
    rw [hs.levels, hs.runs, List.length_map]
  have ha : chunks[s.runLevels.length - 2]? = some chunks[s.runLevels.length - 2] :=
    List.getElem?_eq_getElem (by omega)
  have hb : chunks[s.runLevels.length - 2 + 1]? = some chunks[s.runLevels.length - 1] := by
    rw [List.getElem?_eq_some_iff]
    exact ⟨by omega, by congr 1; omega⟩
  have hb' : chunks[s.runLevels.length - 1]? = some chunks[s.runLevels.length - 1] :=
    List.getElem?_eq_getElem (by omega)
  generalize chunks[s.runLevels.length - 2] = a at ha
  generalize chunks[s.runLevels.length - 1] = b at hb hb'
  have hcut := Splice.eq_cut_pair ha hb
  rw [List.drop_eq_nil_of_le (by omega)] at hcut
  have hreads := hs.readsBack
  have hread : ∀ c ∈ chunks, ∀ row ∈ c, ReadsBack env row := fun c hc row hrow =>
    hreads row (List.mem_flatten_of_mem hc hrow)
  have hmerged := mergePairToFile_spec htrans (hread a (List.mem_of_getElem? ha))
    (hread b (List.mem_of_getElem? hb))
  have hflat : (chunks.take (s.runLevels.length - 2) ++ [a ++ b]).flatten = chunks.flatten := by
    conv_rhs => rw [hcut]
    simp
  have honce : s.compactOnce env level = .ok
      { s with runs := s.runs.take (s.runLevels.length - 2) ++
                 [writeRun env (stableSort (cmpRows env s.keys) (a ++ b))]
               runLevels := s.runLevels.take (s.runLevels.length - 2) ++ [level + 1] } := by
    have hcount : ∀ l, (writeRun env (stableSort (cmpRows env s.keys) l)).count = l.length :=
      fun l => (perm_stableSort l).length_eq
    simp only [Sorter.compactOnce, hs.runs, List.getElem?_map, ha, hb', Option.map_some, hcount,
      hmerged, bind, Except.bind, pure, Except.pure]
  refine ⟨_, chunks.take (s.runLevels.length - 2) ++ [a ++ b], honce, ⟨?_, ?_, ?_⟩, hflat, rfl,
    ⟨rfl, rfl, rfl⟩, ?_⟩
  · simp only [hs.runs, List.map_append, List.map_take, List.map_cons, List.map_nil]
  · simp only [hs.runs, List.length_append, List.length_take, List.length_map, List.length_cons,
      List.length_nil]
    omega
  · rw [hflat]
    exact hreads
  · simp only [List.length_append, List.length_take, List.length_cons, List.length_nil]
    omega

/-- The compaction keeps the input, and is over when there are turns enough. -/
theorem Sorter.Keeps.compact : ∀ {s : Sorter V} {chunks : List (List (Row V))},
    s.Keeps env chunks → Std.TransCmp (cmpRows env s.keys) → ∀ turns,
    ∃ s' chunks', Sorter.compact env turns s = .ok s' ∧ s'.Keeps env chunks' ∧
      chunks'.flatten = chunks.flatten ∧ s'.buf = s.buf ∧ s.Alike s' ∧
      (s.runLevels.length ≤ turns → s'.lastLevel = none) := by
  intro s chunks hs htrans turns
  induction turns generalizing s chunks with
  | zero =>
    refine ⟨s, chunks, rfl, hs, rfl, rfl, .rfl, fun hle => ?_⟩
    cases h : s.lastLevel with
    | none => rfl
    | some level =>
      have h2 := Sorter.lastLevel_eq_some h
      omega
  | succ turns ih =>
    rw [Sorter.compact]
    cases h : s.lastLevel with
    | none => exact ⟨s, chunks, rfl, hs, rfl, rfl, .rfl, fun _ => h⟩
    | some level =>
      obtain ⟨s', chunks', honce, hs', hflat, hbuf, hlike, hlevels⟩ :=
        hs.compactOnce htrans (Sorter.lastLevel_eq_some h) level
      obtain ⟨t, chunks'', hrun, ht, hflat', hbuf', hlike', hdone⟩ :=
        ih hs' (by rw [hlike.keys]; exact htrans)
      refine ⟨t, chunks'', ?_, ht, hflat'.trans hflat, hbuf'.trans hbuf, hlike.trans hlike',
        fun hle => hdone (by omega)⟩
      simp only [honce, bind, Except.bind, hrun]

/-- A spill makes a chunk of the rows in memory. -/
theorem Sorter.Keeps.spillRun {s : Sorter V} {chunks : List (List (Row V))}
    (hs : s.Keeps env chunks) (htrans : Std.TransCmp (cmpRows env s.keys))
    (hbuf : ∀ row ∈ s.buf, ReadsBack env row) :
    ∃ s' chunks', s.spillRun env = .ok s' ∧ s'.Keeps env chunks' ∧
      chunks'.flatten ++ s'.buf = chunks.flatten ++ s.buf ∧ s'.buf = [] ∧ s.Alike s' ∧
      s'.lastLevel = none := by
  have hkeeps : Sorter.Keeps env
      { s with runs := s.runs ++ [writeRun env (stableSort (cmpRows env s.keys) s.buf)]
               runLevels := s.runLevels ++ [0]
               buf := []
               bufBytes := 0 } (chunks ++ [s.buf]) := by
    refine ⟨by simp [hs.runs], by simp [hs.levels], fun row hrow => ?_⟩
    rw [List.flatten_concat] at hrow
    cases List.mem_append.mp hrow with
    | inl h => exact hs.readsBack row h
    | inr h => exact hbuf row h
  obtain ⟨s', chunks', hrun, hs', hflat, hbuf', hlike, hdone⟩ :=
    hkeeps.compact htrans (s.runLevels.length + 1)
  refine ⟨s', chunks', hrun, hs', ?_, hbuf', ⟨hlike.keys, hlike.budget, hlike.spill⟩,
    hdone (by simp)⟩
  rw [hbuf', hflat, List.flatten_concat, List.append_nil]

/-- A push takes the row, unless the account refuses its memory and there is nowhere to spill. -/
theorem Sorter.Keeps.push {s : Sorter V} {chunks : List (List (Row V))}
    (htrans : Std.TransCmp (cmpRows env s.keys)) (hs : s.Keeps env chunks)
    (hbuf : ∀ row ∈ s.buf, ReadsBack env row) {row : Row V} (hrow : ReadsBack env row)
    {rejected : Bool} (htake : s.canSpill = true ∨ rejected = false) :
    ∃ s' chunks', s.push env row rejected = .ok s' ∧ s'.Keeps env chunks' ∧
      chunks'.flatten ++ s'.buf = chunks.flatten ++ s.buf ++ [row] ∧ s.Alike s' := by
  have hmem : ∀ r ∈ s.buf ++ [row], ReadsBack env r := by
    intro r hr
    cases List.mem_append.mp hr with
    | inl h => exact hbuf r h
    | inr h => rwa [List.mem_singleton.mp h]
  rw [Sorter.push]
  split
  case isTrue =>
    dsimp only
    split
    case isTrue =>
      have hkeeps : Sorter.Keeps env
          { s with total := s.total + 1
                   buf := s.buf ++ [row]
                   bufBytes := s.bufBytes + env.rowBytes row } chunks :=
        ⟨hs.runs, hs.levels, hs.readsBack⟩
      obtain ⟨s', chunks', hrun, hs', hflat, -, hlike, -⟩ := hkeeps.spillRun htrans hmem
      refine ⟨s', chunks', hrun, hs', ?_, ⟨hlike.keys, hlike.budget, hlike.spill⟩⟩
      rw [hflat, List.append_assoc]
    case isFalse =>
      exact ⟨_, chunks, rfl, ⟨hs.runs, hs.levels, hs.readsBack⟩, (List.append_assoc ..).symm,
        ⟨rfl, rfl, rfl⟩⟩
  case isFalse hno =>
    have hgrant : rejected = false := htake.resolve_left hno
    simp only [hgrant, Bool.false_eq_true, if_false]
    exact ⟨_, chunks, rfl, ⟨hs.runs, hs.levels, hs.readsBack⟩, (List.append_assoc ..).symm,
      ⟨rfl, rfl, rfl⟩⟩

/-- The rows a sorter takes: all when it can spill, else those the account has memory for. -/
def takenRows (canSpill : Bool) (pushes : List (Row V × Bool)) : List (Row V) :=
  (pushes.filter fun push => canSpill || !push.2).map Prod.fst

theorem Sorter.Keeps.pushAll : ∀ {pushes : List (Row V × Bool)} {s : Sorter V}
    {chunks : List (List (Row V))}, Std.TransCmp (cmpRows env s.keys) → s.Keeps env chunks →
    (∀ row ∈ s.buf, ReadsBack env row) → (∀ push ∈ pushes, ReadsBack env push.1) →
    ∃ s' chunks', s.pushAll env pushes = .ok (s', takenRows s.canSpill pushes) ∧
      s'.Keeps env chunks' ∧ s.Alike s' ∧
      chunks'.flatten ++ s'.buf = chunks.flatten ++ s.buf ++ takenRows s.canSpill pushes := by
  intro pushes
  induction pushes with
  | nil =>
    intro s chunks _ hs _ _
    exact ⟨s, chunks, rfl, hs, .rfl, by simp [takenRows]⟩
  | cons push pushes ih =>
    intro s chunks htrans hs hbuf hpushes
    have hrow := hpushes push List.mem_cons_self
    have hpushes' := fun p hp => hpushes p (List.mem_cons_of_mem _ hp)
    by_cases htake : s.canSpill = true ∨ push.2 = false
    · obtain ⟨s', chunks', hpush, hs', hflat, hlike⟩ := hs.push htrans hbuf hrow htake
      have hbuf' : ∀ row ∈ s'.buf, ReadsBack env row := by
        intro r hr
        have hall : r ∈ chunks.flatten ++ s.buf ++ [push.1] := by
          rw [← hflat]
          exact List.mem_append_right _ hr
        simp only [List.mem_append, List.mem_singleton] at hall
        rcases hall with (h | h) | h
        · exact hs.readsBack r h
        · exact hbuf r h
        · rwa [h]
      obtain ⟨t, chunks'', hrest, ht, hlike', hflat'⟩ :=
        ih (by rw [hlike.keys]; exact htrans) hs' hbuf' hpushes'
      have htaken : takenRows s.canSpill (push :: pushes) =
          push.1 :: takenRows s'.canSpill pushes := by
        have hkeep : (s.canSpill || !push.2) = true := by
          cases htake with
          | inl h => rw [h, Bool.true_or]
          | inr h => rw [h, Bool.not_false, Bool.or_true]
        rw [takenRows, List.filter_cons, if_pos hkeep, hlike.canSpill]
        rfl
      refine ⟨t, chunks'', ?_, ht, hlike.trans hlike', ?_⟩
      · rw [htaken, Sorter.pushAll]
        simp only [hpush, hrest]
        rfl
      · rw [hflat', hflat, htaken, List.append_assoc (_ ++ s.buf), List.singleton_append]
    · -- refused, and nothing changes
      rw [not_or] at htake
      have hno : s.canSpill = false := Bool.eq_false_iff.mpr htake.1
      have hrejected : push.2 = true := by
        cases h : push.2 with
        | true => rfl
        | false => exact absurd h htake.2
      obtain ⟨t, chunks', hrest, ht, hlike, hflat⟩ := ih htrans hs hbuf hpushes'
      have htaken : takenRows s.canSpill (push :: pushes) = takenRows s.canSpill pushes := by
        rw [takenRows, List.filter_cons, if_neg (by rw [hno, hrejected]; decide)]
        rfl
      refine ⟨t, chunks', ?_, ht, hlike, by rw [hflat, htaken]⟩
      have hpush : s.push env push.1 push.2 = .error .outOfMemory := by
        rw [Sorter.push, hno, hrejected]
        rfl
      rw [htaken, Sorter.pushAll]
      simp only [hpush, hrest]

/-- What comes out of a sorter is the stable sort of its input. -/
theorem Sorter.Keeps.finish {s : Sorter V} {chunks : List (List (Row V))}
    (htrans : Std.TransCmp (cmpRows env s.keys)) (hs : s.Keeps env chunks) :
    ∃ rows, s.finish env = .ok rows ∧ ∀ n, rows.nexts env n =
      .ok ((List.range n).map fun i =>
        (stableSort (cmpRows env s.keys) (chunks.flatten ++ s.buf))[i]?) := by
  rw [Sorter.finish]
  split
  case isTrue hnil =>
    have hnone : chunks = [] := by
      rw [hs.runs, List.isEmpty_iff] at hnil
      exact List.map_eq_nil_iff.mp hnil
    rw [hnone]
    refine ⟨_, rfl, fun n => ?_⟩
    rw [List.flatten_nil, List.nil_append]
    generalize stableSort (cmpRows env s.keys) s.buf = rows
    induction n generalizing rows with
    | zero => rfl
    | succ n ih =>
      rw [SortedRows.nexts, List.range_succ_eq_map]
      cases rows with
      | nil =>
        simp only [SortedRows.next, bind, Except.bind, ih]
        simp [List.map_const', Function.comp_def, pure, Except.pure]
      | cons row rows =>
        simp only [SortedRows.next, bind, Except.bind, ih]
        simp [Function.comp_def, pure, Except.pure]
  case isFalse =>
    have hholds : List.Forall₂ (Source.Holds env)
        (s.runs.map Source.openFile ++ [.mem (stableSort (cmpRows env s.keys) s.buf)])
        ((chunks ++ [s.buf]).map (stableSort (cmpRows env s.keys))) := by
      rw [List.map_append, hs.runs, List.map_map]
      refine List.rel_append ?_ (.cons (.mem _) .nil)
      rw [List.forall₂_map_left_iff, List.forall₂_map_right_iff, List.forall₂_same]
      intro c hc
      exact openFile_holds fun row hrow => hs.readsBack row
        (List.mem_flatten_of_mem hc ((perm_stableSort c).subset hrow))
    obtain ⟨m, hprime, hm⟩ := merging_prime s.keys hholds
    refine ⟨.merge m, by simp only [hprime, bind, Except.bind]; rfl, fun n => ?_⟩
    rw [hm.nexts htrans (n := n), stableSort_flatten, List.flatten_concat]
    intro l hl
    obtain ⟨c, -, rfl⟩ := List.mem_map.mp hl
    exact sorted_stableSort c

/-- Whatever is spilled and whenever, the rows pushed come out in the order of the stable sort, each
    once, and nothing after them. -/
theorem nexts_pushAll (keys : List SortKey) (budget : Nat) (spill : Bool)
    (pushes : List (Row V × Bool)) (hcmp : TotalPreorder env)
    (hcodec : ∀ push ∈ pushes, ReadsBack env push.1) :
    ∃ s taken rows, (Sorter.new keys budget spill).pushAll env pushes = .ok (s, taken) ∧
      taken = takenRows (Sorter.new (V := V) keys budget spill).canSpill pushes ∧
      s.finish env = .ok rows ∧
      ∀ n, rows.nexts env n =
        .ok ((List.range n).map fun i => (stableSort (cmpRows env keys) taken)[i]?) := by
  have htrans := transCmp_cmpRows hcmp keys
  have hnew : (Sorter.new keys budget spill).Keeps env [] := ⟨rfl, rfl, fun _ h => by cases h⟩
  obtain ⟨s, chunks, hpush, hs, hlike, hrows⟩ :=
    Sorter.Keeps.pushAll htrans hnew (fun _ h => by cases h) hcodec
  obtain ⟨rows, hfinish, hnexts⟩ := hs.finish (by rw [hlike.keys]; exact htrans)
  refine ⟨s, _, rows, hpush, rfl, hfinish, fun n => ?_⟩
  rw [hnexts, hlike.keys, hrows]
  rfl

/-- Every row spills, and the first two runs are merged. -/
theorem nexts_pushAll_bools :
    ∃ s taken rows, (Sorter.new [⟨0, true, false⟩] 1 true).pushAll boolRows
        [([false, true], false), ([true, false], true), ([false, false], false)] =
          .ok (s, taken) ∧
      taken = [[false, true], [true, false], [false, false]] ∧
      s.finish boolRows = .ok rows ∧
      ∀ n, rows.nexts boolRows n = .ok ((List.range n).map fun i =>
        (stableSort (cmpRows boolRows [⟨0, true, false⟩]) taken)[i]?) :=
  nexts_pushAll [⟨0, true, false⟩] 1 true
    [([false, true], false), ([true, false], true), ([false, false], false)]
    totalPreorder_boolRows (by
      intro push hpush rest
      simp only [List.mem_cons, List.not_mem_nil, or_false] at hpush
      rcases hpush with rfl | rfl | rfl <;> rfl)

end Jed.Spill
