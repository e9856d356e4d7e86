import Jed.Key.Containers
import Jed.Lib.Results

/-!
# Keys of collated text

The sort key of a text under a collation (`collation.rs:479-511`): the weights of its collation
elements level by level, and the text itself last. Keys of one type are in the order the collation
declares.
-/

namespace Jed.Key

open KeyCodes

/-- `Ce`: the weights of a collation element. -/
structure Ce where
  l1 : Fin 65536
  l2 : Fin 65536
  l3 : Fin 65536

/-- A collation, as the elements `collation_elements` finds in a text. -/
structure Table where
  elements : Bytes → Except Failure (List Ce)

/-- The weights of a level that count. -/
def weights (level : Ce → Fin 65536) (ces : List Ce) : List (Fin 65536) :=
  (ces.map level).filter (· ≠ 0)

/-- The weights of a level, each in two bytes. -/
def levelKey (level : Ce → Fin 65536) (ces : List Ce) : Bytes :=
  (weights level ces).flatMap fun w : Fin 65536 => beBytes 2 w

/-- `sort_key` (`collation.rs:485-511`). -/
def sortKey (table : Table) (s : Bytes) : Except Failure Bytes := do
  let ces ← table.elements s
  return levelKey Ce.l1 ces ++ [0, 0] ++ levelKey Ce.l2 ces ++ [0, 0] ++ levelKey Ce.l3 ces ++ [0, 0]
    ++ encodeTerminated s

/-- The collation as the key encoders take it. -/
def Table.collation (table : Table) : Collation := ⟨sortKey table⟩

/-- The order of two texts by their collation elements, level by level, and then by their bytes. -/
def levelsCmp (xs ys : List Ce) : Ordering :=
  (listCompare compare (weights Ce.l1 xs) (weights Ce.l1 ys)).then <|
    (listCompare compare (weights Ce.l2 xs) (weights Ce.l2 ys)).then <|
      listCompare compare (weights Ce.l3 xs) (weights Ce.l3 ys)

/-- The order of two texts. -/
def textCmp (table : Option Table) (s t : Bytes) : Ordering :=
  match table with
  | none => lexCompare s t
  | some table =>
    match table.elements s, table.elements t with
    | .ok xs, .ok ys => (levelsCmp xs ys).then (lexCompare s t)
    | _, _ => lexCompare s t

theorem Diverges.flatMap {α β : Type} [LinearOrder α] [LinearOrder β] {f : α → List β}
    (hf : ∀ x y, x < y → Diverges (f x) (f y)) {s t : List α} (h : Diverges s t) :
    Diverges (s.flatMap f) (t.flatMap f) := by
  induction h with
  | head s t hlt =>
    rw [List.flatMap_cons, List.flatMap_cons]
    exact (hf _ _ hlt).append _ _
  | tail x _ ih =>
    rw [List.flatMap_cons, List.flatMap_cons]
    exact ih.append_left _

theorem Codes.flatMap {α β : Type} [LinearOrder α] [LinearOrder β] {f : α → List β}
    (hf : ∀ x y, x < y → Diverges (f x) (f y)) {o : Ordering} {s t : List α} (h : Codes o s t) :
    Codes o (s.flatMap f) (t.flatMap f) := by
  cases o with
  | lt => exact Diverges.flatMap hf h
  | eq => exact congrArg (List.flatMap f) h
  | gt => exact Diverges.flatMap hf h

theorem diverges_weight (x y : Fin 65536) (h : x < y) :
    Diverges (beBytes 2 (x : ℕ)) (beBytes 2 (y : ℕ)) := by
  have hcodes := codes_beBytes (w := 2) (m := x) (n := y) x.isLt y.isLt
  rwa [compare_lt_iff_lt.mpr (show (x : ℕ) < y from h)] at hcodes

/-- The weights of a level and the separator behind them. -/
theorem codes_level (level : Ce → Fin 65536) (xs ys : List Ce) :
    Codes (listCompare compare (weights level xs) (weights level ys))
      (weights level xs ++ [0]) (weights level ys ++ [0]) := by
  have hfront : ∀ w ∈ weights level xs ++ weights level ys,
      ∃ (b : Fin 65536) (v : List (Fin 65536)), [w] = b :: v ∧ 0 < b := by
    intro w hw
    have hne : w ≠ 0 := by
      rcases List.mem_append.mp hw with h | h <;> simpa using (List.mem_filter.mp h).2
    exact ⟨w, [], rfl, Fin.pos_iff_ne_zero.mpr hne⟩
  have hrest : listCompare compare (weights level xs) (weights level ys) = .eq →
      Codes .eq ([] : List (Fin 65536)) [] := fun _ => codes_self []
  have hall := codes_terminated (fun a _ b _ => codes_single a b) hfront hrest
  rw [Ordering.then_eq] at hall
  simpa using hall

variable {s t : Bytes}

/-- The sort keys of texts are in the order of the texts. -/
theorem coded_sortKey (table : Table) {xs ys : List Ce}
    (hs : table.elements s = .ok xs) (ht : table.elements t = .ok ys) :
    Coded (sortKey table) (textCmp (some table) s t) s t := by
  have hbytes : ∀ level (ces : List Ce), levelKey level ces ++ [0, 0] =
      (weights level ces ++ [0]).flatMap fun w : Fin 65536 => beBytes 2 w := by
    intro level ces
    rw [List.flatMap_append, levelKey]
    congr 1
  refine coded_ok (by rw [sortKey, hs]; rfl) (by rw [sortKey, ht]; rfl) ?_
  simp only [textCmp, hs, ht, levelsCmp, List.append_assoc, Ordering.then_assoc]
  simp only [← List.append_assoc (levelKey _ _) [0, 0], hbytes]
  refine Codes.append (Codes.flatMap diverges_weight (codes_level Ce.l1 xs ys)) fun _ => ?_
  refine Codes.append (Codes.flatMap diverges_weight (codes_level Ce.l2 xs ys)) fun _ => ?_
  refine Codes.append (Codes.flatMap diverges_weight (codes_level Ce.l3 xs ys)) fun _ => ?_
  exact codes_encodeTerminated s t

/-- The order of two scalars. -/
def scalarCmp (table : Option Table) (a b : Value) : Ordering :=
  match a, b with
  | .text s, .text t => textCmp table s t
  | a, b => valueCmp a b

/-- The order of two elements, NULL last. -/
def elementCmp (table : Option Table) (a b : Value) : Ordering :=
  nullCmp a b (scalarCmp table a b) false false

/-- The order of two values of a key column. -/
def typedCmp (table : Option Table) (a b : Value) : Ordering :=
  match a, b with
  | .array xDims xLbounds xs, .array yDims yLbounds ys =>
    (listCompare (elementCmp table) xs ys).then <| (compare xDims.length yDims.length).then <|
      listCompare dimCmp (xDims.zip xLbounds) (yDims.zip yLbounds)
  | a, b => scalarCmp table a b

theorem scalarCmp_none (a b : Value) : scalarCmp none a b = valueCmp a b := by
  unfold scalarCmp
  split
  · rw [valueCmp]
    rfl
  · rfl

theorem typedCmp_none (a b : Value) : typedCmp none a b = valueCmp a b := by
  unfold typedCmp
  split
  · have hslot : elementCmp none = slotCmp := by
      funext x y
      rw [elementCmp, scalarCmp_none]
      rfl
    rw [hslot, listCompare_slotCmp, valueCmp, Ordering.then_assoc]
  · exact scalarCmp_none a b

variable {v : Value} {ty : ScalarType}

theorem encodeKeyValue_of_ne_text {coll : Option Collation}
    (hv : ∀ s, v ≠ .text s) : encodeKeyValue ty v coll = encodeKeyValue ty v none := by
  cases v with
  | text s => exact absurd rfl (hv s)
  | _ => rfl

variable {table : Option Table} {a b : Value}

theorem scalarCmp_of_ne_text (ha : ∀ s, a ≠ .text s) :
    scalarCmp table a b = valueCmp a b := by
  cases a with
  | text s => exact absurd rfl (ha s)
  | _ => rfl

/-- Scalars that have keys have them in their order. -/
theorem coded_scalar_under {x y : Value} (hx : Holds ty x) (hy : Holds ty y)
    (hs : encodeKeyValue ty x (table.map Table.collation) = .ok s)
    (ht : encodeKeyValue ty y (table.map Table.collation) = .ok t) :
    Codes (scalarCmp table x y) s t := by
  have hplain : encodeKeyValue ty x none = .ok s → encodeKeyValue ty y none = .ok t →
      Codes (valueCmp x y) s t := by
    intro hs ht
    obtain ⟨s', t', hs', ht', hcodes⟩ := coded_scalar hx hy
    cases hs.symm.trans hs'
    cases ht.symm.trans ht'
    exact hcodes
  cases table with
  | none =>
    rw [scalarCmp_none]
    exact hplain hs ht
  | some table =>
    by_cases htext : ∃ a, x = .text a
    · obtain ⟨a, rfl⟩ := htext
      cases hx
      cases hy with
      | text b =>
        have hs : sortKey table a = .ok s := hs
        have ht : sortKey table b = .ok t := ht
        obtain ⟨xs, hxs, -⟩ := Results.bind_eq_ok.mp hs
        obtain ⟨ys, hys, -⟩ := Results.bind_eq_ok.mp ht
        obtain ⟨s', t', hs', ht', hcodes⟩ := coded_sortKey table hxs hys
        cases hs.symm.trans hs'
        cases ht.symm.trans ht'
        exact hcodes
    · have hx' : ∀ a, x ≠ .text a := fun a h => htext ⟨a, h⟩
      have hy' : ∀ b, y ≠ .text b := by
        rintro b rfl
        cases hy
        cases hx with
        | text a => exact hx' a rfl
      rw [encodeKeyValue_of_ne_text hx'] at hs
      rw [encodeKeyValue_of_ne_text hy'] at ht
      rw [scalarCmp_of_ne_text hx']
      exact hplain hs ht

/-- Elements that have keys have them in their order, NULL last. -/
theorem codes_element_under {elem : ScalarType} {x y : Value}
    (hx : ElementHolds elem x) (hy : ElementHolds elem y)
    (hs : encodeElement elem (table.map Table.collation) x = .ok s)
    (ht : encodeElement elem (table.map Table.collation) y = .ok t) :
    Codes (elementCmp table x y) s t := by
  rcases hx with rfl | hx <;> rcases hy with rfl | hy
  · cases hs
    cases ht
    exact codes_self _
  · cases hs
    rw [encodeElement_of_ne hy.ne_null] at ht
    obtain ⟨k, -, rfl⟩ := Results.map_eq_ok.mp ht
    rw [elementCmp, nullCmp_null_left hy.ne_null]
    exact codes_gt (by decide) _ _
  · cases ht
    rw [encodeElement_of_ne hx.ne_null] at hs
    obtain ⟨k, -, rfl⟩ := Results.map_eq_ok.mp hs
    rw [elementCmp, nullCmp_null_right hx.ne_null]
    exact codes_lt (by decide) _ _
  · rw [encodeElement_of_ne hx.ne_null] at hs
    rw [encodeElement_of_ne hy.ne_null] at ht
    obtain ⟨k, hk, rfl⟩ := Results.map_eq_ok.mp hs
    obtain ⟨l, hl, rfl⟩ := Results.map_eq_ok.mp ht
    rw [elementCmp, nullCmp_of_ne hx.ne_null hy.ne_null]
    exact (coded_scalar_under hx hy hk hl).cons 0x01

/-- The elements of an array that has a key have keys. -/
theorem concatKeys_ok {α : Type} {enc : α → Except Failure Bytes} {xs : List α}
    (h : concatKeys enc xs = .ok s) : ∀ x ∈ xs, ∃ t, enc x = .ok t := by
  induction xs generalizing s with
  | nil => exact fun _ hx => by cases hx
  | cons x xs ih =>
    rw [concatKeys] at h
    obtain ⟨key, hkey, hrest⟩ := Results.bind_eq_ok.mp h
    obtain ⟨rest, hrest, -⟩ := Results.bind_eq_ok.mp hrest
    intro y hy
    cases List.mem_cons.mp hy with
    | inl heq => exact ⟨key, heq ▸ hkey⟩
    | inr hmem => exact ih hrest y hmem

/-- A value that has a key under a collation, and is no text and no array, has the same key under
    every other. -/
theorem encodeKeyCt_plain {ct : ColType} (hct : ∀ s, ct ≠ .scalar s)
    (harr : ∀ s, ct ≠ .array s) (coll : Option Collation) :
    encodeKeyCt ct v coll = encodeKeyCt ct v none := by
  cases ct with
  | scalar s => exact absurd rfl (hct s)
  | array s => exact absurd rfl (harr s)
  | composite fields => cases v <;> rfl
  | range elem => cases elem <;> cases v <;> rfl

theorem encodeKeyCt_scalar {s : ScalarType} (hv : v ≠ .null) (coll : Option Collation) :
    encodeKeyCt (.scalar s) v coll = encodeKeyValue s v coll := by
  cases v with
  | null => exact absurd rfl hv
  | _ => rfl

/-- Values of a key column that have keys have them in their order. -/
theorem codes_typed (ct : ColType) (ha : WellFormed ct a) (hb : WellFormed ct b)
    (hs : encodeKeyCt ct a (table.map Table.collation) = .ok s)
    (ht : encodeKeyCt ct b (table.map Table.collation) = .ok t) : Codes (typedCmp table a b) s t := by
  have hplain : (∀ s, ct ≠ .scalar s) → (∀ s, ct ≠ .array s) → Codes (valueCmp a b) s t := by
    intro hct harr
    rw [encodeKeyCt_plain hct harr] at hs ht
    obtain ⟨s', t', hs', ht', hcodes⟩ := coded_value ct ha hb
    cases hs.symm.trans hs'
    cases ht.symm.trans ht'
    exact hcodes
  cases ct with
  | scalar ty =>
    rw [encodeKeyCt_scalar (Holds.ne_null ha)] at hs
    rw [encodeKeyCt_scalar (Holds.ne_null hb)] at ht
    have hcodes := coded_scalar_under ha hb hs ht
    cases ha <;> exact hcodes
  | composite fields =>
    cases a <;> try exact ha.elim
    exact hplain nofun nofun
  | range elem =>
    cases elem <;> try exact ha.elim
    cases a <;> try exact ha.elim
    exact hplain nofun nofun
  | array elem =>
    cases elem <;> try exact ha.elim
    rename_i elem
    cases a <;> try exact ha.elim
    cases b <;> try exact hb.elim
    rename_i dims lbounds xs dims' lbounds' ys
    have hs : encodeArrayKey elem dims lbounds xs (table.map Table.collation) = .ok s := hs
    have ht : encodeArrayKey elem dims' lbounds' ys (table.map Table.collation) = .ok t := ht
    obtain ⟨_, hxs, _⟩ := Results.bind_eq_ok.mp hs
    obtain ⟨_, hys, _⟩ := Results.bind_eq_ok.mp ht
    have hkey : ∀ z ∈ xs ++ ys, ∃ u, encodeElement elem (table.map Table.collation) z = .ok u := by
      intro z hz
      cases List.mem_append.mp hz with
      | inl h => exact concatKeys_ok hxs z h
      | inr h => exact concatKeys_ok hys z h
    have hfront : ∀ z ∈ xs ++ ys, ∃ b u,
        encodeElement elem (table.map Table.collation) z = .ok (b :: u) ∧ 0x00 < b := by
      intro z hz
      obtain ⟨u, hu⟩ := hkey z hz
      by_cases hnull : z = .null
      · subst hnull
        exact ⟨0x02, [], rfl, by decide⟩
      · have heq := hu
        rw [encodeElement_of_ne hnull] at heq
        obtain ⟨k, -, rfl⟩ := Results.map_eq_ok.mp heq
        exact ⟨0x01, k, hu, by decide⟩
    have hcoded : ∀ x ∈ xs, ∀ y ∈ ys,
        Coded (encodeElement elem (table.map Table.collation)) (elementCmp table x y) x y := by
      intro x hx y hy
      obtain ⟨u, hu⟩ := hkey x (List.mem_append_left _ hx)
      obtain ⟨v, hv⟩ := hkey y (List.mem_append_right _ hy)
      exact coded_ok hu hv (codes_element_under (ha.2 x hx) (hb.2 y hy) hu hv)
    obtain ⟨s', t', hs', ht', hcodes⟩ := coded_array_of ha.1 hb.1 hfront hcoded
    cases hs.symm.trans hs'
    cases ht.symm.trans ht'
    exact hcodes

theorem listCompare_eq_iff {α : Type} {cmp cmp' : α → α → Ordering} {xs ys : List α}
    (h : ∀ x ∈ xs, ∀ y ∈ ys, cmp x y = .eq ↔ cmp' x y = .eq) :
    listCompare cmp xs ys = .eq ↔ listCompare cmp' xs ys = .eq := by
  induction xs generalizing ys with
  | nil => cases ys <;> exact Iff.rfl
  | cons x xs ih =>
    cases ys with
    | nil => exact Iff.rfl
    | cons y ys =>
      rw [listCompare, listCompare, Ordering.then_eq_eq, Ordering.then_eq_eq,
        h x List.mem_cons_self y List.mem_cons_self,
        ih fun x hx y hy => h x (List.mem_cons_of_mem _ hx) y (List.mem_cons_of_mem _ hy)]

theorem levelsCmp_self (xs : List Ce) : levelsCmp xs xs = .eq := by
  simp only [levelsCmp, (codes_level _ xs xs).eq_iff.mp rfl, Ordering.eq_then]

/-- Texts no collation tells apart are one. -/
theorem textCmp_eq_iff (table : Option Table) (s t : Bytes) :
    textCmp table s t = .eq ↔ lexCompare s t = .eq := by
  unfold textCmp
  split
  · exact Iff.rfl
  · split
    · rename_i hxs hys
      rw [Ordering.then_eq_eq]
      refine ⟨fun h => h.2, fun h => ⟨?_, h⟩⟩
      rw [lexCompare_eq_iff.mp h, hys] at hxs
      cases hxs
      exact levelsCmp_self _
    · exact Iff.rfl

theorem scalarCmp_eq_iff (table : Option Table) (a b : Value) :
    scalarCmp table a b = .eq ↔ valueCmp a b = .eq := by
  unfold scalarCmp
  split
  · rw [valueCmp]
    exact textCmp_eq_iff table _ _
  · exact Iff.rfl

/-- Values of a key column are equal under every collation or under none. -/
theorem typedCmp_eq_iff (table : Option Table) (a b : Value) :
    typedCmp table a b = .eq ↔ valueCmp a b = .eq := by
  rw [← typedCmp_none a b]
  unfold typedCmp
  split
  · rename_i xs _ _ ys
    have helem : ∀ x y, elementCmp table x y = .eq ↔ elementCmp none x y = .eq := by
      intro x y
      rw [elementCmp, elementCmp]
      unfold nullCmp
      split
      · exact Iff.rfl
      · exact Iff.rfl
      · exact Iff.rfl
      · simp only [Bool.false_eq_true, if_false, scalarCmp_eq_iff]
    have hlist := @listCompare_eq_iff _ _ _ xs ys fun x _ y _ => helem x y
    simp only [Ordering.then_eq_eq, hlist]
  · rw [scalarCmp_eq_iff, scalarCmp_eq_iff]

end Jed.Key
