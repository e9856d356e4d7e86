import Jed.Key.Decimals

/-!
# Keys of values

The keys of two values of one column type code the comparison of the values, scalars, arrays and
ranges of scalars, and composites of any of these alike; and so do the keys of rows.
-/

namespace Jed.Key

open KeyCodes Positional Ranges

/-- Both arguments have a key, and the keys code the comparison `o`. -/
def Coded {α : Type} (enc : α → Except Failure Bytes) (o : Ordering) (x y : α) : Prop :=
  ∃ s t, enc x = .ok s ∧ enc y = .ok t ∧ Codes o s t

variable {s : Bytes}

theorem coded_ok {α : Type} {enc : α → Except Failure Bytes} {o : Ordering} {x y : α} {t : Bytes}
    (hx : enc x = .ok s) (hy : enc y = .ok t) (h : Codes o s t) : Coded enc o x y :=
  ⟨s, t, hx, hy, h⟩

variable {x y : Value} {ty : ScalarType}

/-- Values of one scalar type have keys in their order. -/
theorem coded_scalar (hx : Holds ty x) (hy : Holds ty y) :
    Coded (fun v => encodeKeyValue ty v none) (valueCmp x y) x y := by
  cases hx with
  | int16 h => cases hy with | int16 h' => exact coded_ok rfl rfl (codes_encodeInt (by decide) h h')
  | int32 h => cases hy with | int32 h' => exact coded_ok rfl rfl (codes_encodeInt (by decide) h h')
  | int64 h => cases hy with | int64 h' => exact coded_ok rfl rfl (codes_encodeInt (by decide) h h')
  | text s => cases hy with | text t => exact coded_ok rfl rfl (codes_encodeTerminated s t)
  | bool a => cases hy with | bool b => exact coded_ok rfl rfl (codes_encodeBool a b)
  | decimal h => cases hy with | decimal h' => exact coded_ok rfl rfl (codes_encodeDecimal h h')
  | bytea s => cases hy with | bytea t => exact coded_ok rfl rfl (codes_encodeTerminated s t)
  | uuid h => cases hy with | uuid h' => exact coded_ok rfl rfl (codes_of_length_eq (h.trans h'.symm))
  | timestamp h =>
    cases hy with | timestamp h' => exact coded_ok rfl rfl (codes_encodeInt (by decide) h h')
  | timestamptz h =>
    cases hy with | timestamptz h' => exact coded_ok rfl rfl (codes_encodeInt (by decide) h h')
  | interval hm hd hs =>
    cases hy with
    | interval hm' hd' hs' =>
      exact coded_ok rfl rfl (codes_encodeInterval (.interval hm hd hs) (.interval hm' hd' hs'))
  | float32 a => cases hy with | float32 b => exact coded_ok rfl rfl (codes_encodeFloat binary32 (by decide) a b)
  | float64 a => cases hy with | float64 b => exact coded_ok rfl rfl (codes_encodeFloat binary64 (by decide) a b)
  | date h => cases hy with | date h' => exact coded_ok rfl rfl (codes_encodeInt (by decide) h h')

/-- The element types of ranges. -/
abbrev RangeElem (elem : ScalarType) : Prop := elem ∈ RANGES.map RangeDesc.element

variable {elem : ScalarType}

theorem coded_rangeElem (helem : RangeElem elem) (hx : Holds elem x) (hy : Holds elem y) :
    Coded (encodeRangeElem elem) (elemCmp x y) x y := by
  cases hx with
  | int32 h => cases hy with | int32 h' => exact coded_ok rfl rfl (codes_encodeInt (by decide) h h')
  | int64 h => cases hy with | int64 h' => exact coded_ok rfl rfl (codes_encodeInt (by decide) h h')
  | decimal h => cases hy with | decimal h' => exact coded_ok rfl rfl (codes_encodeDecimal h h')
  | timestamp h =>
    cases hy with | timestamp h' => exact coded_ok rfl rfl (codes_encodeInt (by decide) h h')
  | timestamptz h =>
    cases hy with | timestamptz h' => exact coded_ok rfl rfl (codes_encodeInt (by decide) h h')
  | date h => cases hy with | date h' => exact coded_ok rfl rfl (codes_encodeInt (by decide) h h')
  | _ => exact absurd helem (by decide)

/-- A bound in the range of the element type. -/
def BoundHolds (elem : ScalarType) (v : Option Value) : Prop := ∀ x ∈ v, Holds elem x

/-- The byte behind an element tells bounds at one element apart. -/
theorem codes_inclusive (x y : Value) (heq : elemCmp x y = .eq) (inc inc' isLower : Bool) :
    Codes (cmpBound (some x) inc (some y) inc' isLower)
      [if inc = isLower then (0x00 : UInt8) else 0x01] [if inc' = isLower then 0x00 else 0x01] := by
  have hlt : Codes .lt [(0x00 : UInt8)] [0x01] := codes_lt (by decide) [] []
  have hgt : Codes .gt [(0x01 : UInt8)] [0x00] := codes_gt (by decide) [] []
  simp only [cmpBound, cmpBounds, heq]
  cases inc <;> cases inc' <;> cases isLower
  · exact codes_self _
  · exact codes_self _
  · exact hlt
  · exact hgt
  · exact hgt
  · exact hlt
  · exact codes_self _
  · exact codes_self _

/-- The bytes a bound appends code the order of bounds on its side. -/
theorem coded_pushBound (helem : RangeElem elem) {v w : Option Value}
    (hv : BoundHolds elem v) (hw : BoundHolds elem w) (inc inc' isLower : Bool) :
    Coded (fun b => pushBound elem b.1 b.2 isLower) (cmpBound v inc w inc' isLower) (v, inc)
      (w, inc') := by
  cases v with
  | none =>
    cases w with
    | none =>
      refine coded_ok rfl rfl ?_
      rw [cmpBound, cmpBounds, if_pos rfl]
      exact codes_self _
    | some y =>
      obtain ⟨_, t, _, hy, _⟩ := coded_rangeElem helem (hw y rfl) (hw y rfl)
      refine coded_ok rfl (congrArg (Except.map _) hy) ?_
      cases isLower
      · exact codes_gt (by decide) _ _
      · exact codes_lt (by decide) _ _
  | some x =>
    cases w with
    | none =>
      obtain ⟨s, _, hx, _, _⟩ := coded_rangeElem helem (hv x rfl) (hv x rfl)
      refine coded_ok (congrArg (Except.map _) hx) rfl ?_
      cases isLower
      · exact codes_lt (by decide) _ _
      · exact codes_gt (by decide) _ _
    | some y =>
      obtain ⟨s, t, hx, hy, hst⟩ := coded_rangeElem helem (hv x rfl) (hw y rfl)
      refine coded_ok (congrArg (Except.map _) hx) (congrArg (Except.map _) hy) ?_
      have hcmp : cmpBound (some x) inc (some y) inc' isLower
          = (elemCmp x y).then (cmpBound (some x) inc (some y) inc' isLower) := by
        simp only [cmpBound, cmpBounds]
        cases elemCmp x y <;> rfl
      rw [hcmp]
      exact (hst.append fun heq => codes_inclusive x y heq inc inc' isLower).cons 0x01

/-- A range of values of an element type. -/
def RangeHolds (elem : ScalarType) (r : Range) : Prop :=
  r.empty = false → BoundHolds elem r.lower ∧ BoundHolds elem r.upper

/-- Ranges have keys in their total order. -/
theorem coded_range (helem : RangeElem elem) {a b : Range} (ha : RangeHolds elem a) (hb : RangeHolds elem b) :
    Coded (encodeRangeKey elem) (rangeTotalCmp a b) a b := by
  have hkey : ∀ {r : Range}, RangeHolds elem r → r.empty = false →
      ∃ s, encodeRangeKey elem r = .ok (0x01 :: s) := by
    intro r hr he
    obtain ⟨hl, hu⟩ := hr he
    obtain ⟨s, _, hs, _, _⟩ := coded_pushBound helem hl hl r.lowerInc r.lowerInc true
    obtain ⟨t, _, ht, _, _⟩ := coded_pushBound helem hu hu r.upperInc r.upperInc false
    refine ⟨s ++ t, ?_⟩
    simp only at hs ht
    rw [encodeRangeKey, he, hs, ht]
    rfl
  cases hea : a.empty <;> cases heb : b.empty
  · obtain ⟨hal, hau⟩ := ha hea
    obtain ⟨hbl, hbu⟩ := hb heb
    obtain ⟨s, t, hs, ht, hst⟩ := coded_pushBound helem hal hbl a.lowerInc b.lowerInc true
    obtain ⟨u, v, hu, hv, huv⟩ := coded_pushBound helem hau hbu a.upperInc b.upperInc false
    have hcmp : rangeTotalCmp a b = (cmpBound a.lower a.lowerInc b.lower b.lowerInc true).then
        (cmpBound a.upper a.upperInc b.upper b.upperInc false) := by
      unfold rangeTotalCmp
      rw [hea, heb]
      cases cmpBound a.lower a.lowerInc b.lower b.lowerInc true <;> rfl
    simp only at hs ht hu hv
    rw [hcmp]
    refine coded_ok (s := 0x01 :: (s ++ u)) (t := 0x01 :: (t ++ v)) ?_ ?_ ?_
    · rw [encodeRangeKey, hea, hs, hu]
      rfl
    · rw [encodeRangeKey, heb, ht, hv]
      rfl
    · exact (hst.append fun _ => huv).cons 0x01
  · obtain ⟨s, hs⟩ := hkey ha hea
    refine coded_ok hs (by rw [encodeRangeKey, heb]; rfl) ?_
    rw [rangeTotalCmp, hea, heb]
    exact codes_gt (by decide) _ _
  · obtain ⟨s, hs⟩ := hkey hb heb
    refine coded_ok (by rw [encodeRangeKey, hea]; rfl) hs ?_
    rw [rangeTotalCmp, hea, heb]
    exact codes_lt (by decide) _ _
  · refine coded_ok (by rw [encodeRangeKey, hea]; rfl) (by rw [encodeRangeKey, heb]; rfl) ?_
    rw [rangeTotalCmp, hea, heb]
    exact codes_self _

theorem concatKeys_eq {α : Type} {enc : α → Except Failure Bytes} {g : α → Bytes} {xs : List α}
    (h : ∀ x ∈ xs, enc x = .ok (g x)) : concatKeys enc xs = .ok (xs.flatMap g) := by
  induction xs with
  | nil => rfl
  | cons x xs ih =>
    rw [concatKeys, h x List.mem_cons_self, ih fun y hy => h y (List.mem_cons_of_mem x hy)]
    rfl

/-- The key of an element that has one. -/
def keyOf {α : Type} (enc : α → Except Failure Bytes) (x : α) : Bytes := (enc x).toOption.getD []

theorem keyOf_eq {α : Type} {enc : α → Except Failure Bytes} {x : α} (h : enc x = .ok s) : keyOf enc x = s := by
  rw [keyOf, h]
  rfl

theorem enc_eq_keyOf {α : Type} {enc : α → Except Failure Bytes} {x : α}
    (h : enc x = .ok s) : enc x = .ok (keyOf enc x) := by rw [keyOf_eq h, h]

/-- `key_cmp` of a field or an element. -/
def slotCmp (x y : Value) : Ordering := nullCmp x y (valueCmp x y) false false

/-- What an array holds of its element type. -/
def ElementHolds (elem : ScalarType) (v : Value) : Prop := v = .null ∨ Holds elem v

theorem Holds.ne_null {v : Value} (h : Holds ty v) : v ≠ .null := by
  rintro rfl
  cases h

theorem nullCmp_of_ne (hx : x ≠ .null) (hy : y ≠ .null) (base : Ordering) :
    nullCmp x y base false false = base := by
  unfold nullCmp
  split
  · exact absurd rfl hx
  · exact absurd rfl hx
  · exact absurd rfl hy
  · rfl

theorem nullCmp_null_left (hy : y ≠ .null) (base : Ordering) :
    nullCmp .null y base false false = .gt := by
  cases y with
  | null => exact absurd rfl hy
  | _ => rfl

theorem nullCmp_null_right (hx : x ≠ .null) (base : Ordering) :
    nullCmp x .null base false false = .lt := by
  cases x with
  | null => exact absurd rfl hx
  | _ => rfl

theorem encodeElement_of_ne {coll : Option Collation} (hx : x ≠ .null) :
    encodeElement elem coll x = (encodeKeyValue elem x coll).map (0x01 :: ·) := by
  unfold encodeElement
  split
  · exact absurd rfl hx
  · cases encodeKeyValue elem x coll <;> rfl

/-- Elements have keys in their order, NULL last. -/
theorem coded_element (hx : ElementHolds elem x)
    (hy : ElementHolds elem y) : Coded (encodeElement elem none) (slotCmp x y) x y := by
  rcases hx with rfl | hx <;> rcases hy with rfl | hy
  · exact coded_ok rfl rfl (codes_self _)
  · obtain ⟨_, t, _, ht, _⟩ := coded_scalar hy hy
    rw [slotCmp, nullCmp_null_left hy.ne_null]
    refine coded_ok rfl ((encodeElement_of_ne hy.ne_null).trans (congrArg (Except.map _) ht)) ?_
    exact codes_gt (by decide) _ _
  · obtain ⟨s, _, hs, _, _⟩ := coded_scalar hx hx
    rw [slotCmp, nullCmp_null_right hx.ne_null]
    refine coded_ok ((encodeElement_of_ne hx.ne_null).trans (congrArg (Except.map _) hs)) rfl ?_
    exact codes_lt (by decide) _ _
  · obtain ⟨s, t, hs, ht, hst⟩ := coded_scalar hx hy
    rw [slotCmp, nullCmp_of_ne hx.ne_null hy.ne_null]
    exact coded_ok ((encodeElement_of_ne hx.ne_null).trans (congrArg (Except.map _) hs))
      ((encodeElement_of_ne hy.ne_null).trans (congrArg (Except.map _) ht)) (hst.cons 0x01)

theorem element_front (hx : ElementHolds elem x) :
    ∃ b s, encodeElement elem none x = .ok (b :: s) ∧ 0x00 < b := by
  rcases hx with rfl | hx
  · exact ⟨0x02, [], rfl, by decide⟩
  · obtain ⟨s, _, hs, _, _⟩ := coded_scalar hx hx
    refine ⟨0x01, s, (encodeElement_of_ne hx.ne_null).trans ?_, by decide⟩
    exact congrArg (Except.map _) hs

/-- Pairwise, and then by length. -/
theorem listCompare_slotCmp (xs ys : List Value) :
    listCompare slotCmp xs ys = (zipCmp xs ys).then (compare xs.length ys.length) := by
  induction xs generalizing ys with
  | nil =>
    cases ys with
    | nil => rfl
    | cons y ys => exact (compare_lt_iff_lt.mpr (Nat.succ_pos _)).symm
  | cons x xs ih =>
    cases ys with
    | nil => exact (compare_gt_iff_gt.mpr (Nat.succ_pos _)).symm
    | cons y ys =>
      have hlen : compare (x :: xs).length (y :: ys).length = compare xs.length ys.length := by
        rw [List.length_cons, List.length_cons, ← cmp_eq_compare, ← cmp_eq_compare]
        exact (strictMono_id.add_const 1).cmp_map_eq _ _
      rw [listCompare, ih, zipCmp, Ordering.then_assoc, hlen]
      rfl

/-- The shape an array has, as far as its key states it. -/
structure ShapeHolds (dims : List ℕ) (lbounds : List ℤ) : Prop where
  length : dims.length = lbounds.length
  ndim : dims.length < 256
  dims : ∀ n ∈ dims, n < 2 ^ 32
  lbounds : ∀ i ∈ lbounds, -2 ^ 31 ≤ i ∧ i < 2 ^ 31

variable {dims dims' : List ℕ} {lbounds lbounds' : List ℤ}

theorem codes_shape (h : ShapeHolds dims lbounds) (h' : ShapeHolds dims' lbounds') :
    Codes ((compare dims.length dims'.length).then
        (listCompare dimCmp (dims.zip lbounds) (dims'.zip lbounds')))
      (UInt8.ofNat dims.length :: (dims.zip lbounds).flatMap fun d => encodeDim d.1 d.2)
      (UInt8.ofNat dims'.length :: (dims'.zip lbounds').flatMap fun d => encodeDim d.1 d.2) := by
  have hndim : Codes (compare dims.length dims'.length) [UInt8.ofNat dims.length]
      [UInt8.ofNat dims'.length] :=
    (codes_single _ _).map_on ofNat_strictMonoOn (by simpa using h.ndim) (by simpa using h'.ndim)
  refine hndim.append fun heq => codes_flatMap ?_ ?_
  · have := compare_eq_iff_eq.mp heq
    have := h.length
    have := h'.length
    rw [List.length_zip, List.length_zip]
    omega
  · intro a ha b hb
    have hdim := codes_beBytes (w := 4) (h.dims _ (List.of_mem_zip ha).1)
      (h'.dims _ (List.of_mem_zip hb).1)
    have hlb := @codes_encodeInt .int32 (by decide) _ _ (h.lbounds _ (List.of_mem_zip ha).2)
      (h'.lbounds _ (List.of_mem_zip hb).2)
    exact hdim.append fun _ => hlb

/-- Arrays have keys in the order of their elements, when their elements have, and the key of an
    element begins above the terminator. -/
theorem coded_array_of {coll : Option Collation} {cmp : Value → Value → Ordering}
    {xs ys : List Value}
    (h : ShapeHolds dims lbounds) (h' : ShapeHolds dims' lbounds')
    (hkey : ∀ z ∈ xs ++ ys, ∃ b s, encodeElement elem coll z = .ok (b :: s) ∧ 0x00 < b)
    (hcoded : ∀ x ∈ xs, ∀ y ∈ ys, Coded (encodeElement elem coll) (cmp x y) x y) :
    ∃ s t, encodeArrayKey elem dims lbounds xs coll = .ok s ∧
      encodeArrayKey elem dims' lbounds' ys coll = .ok t ∧
      Codes ((listCompare cmp xs ys).then <| (compare dims.length dims'.length).then <|
        listCompare dimCmp (dims.zip lbounds) (dims'.zip lbounds')) s t := by
  have hkeys : ∀ {zs : List Value}, (∀ z ∈ zs, z ∈ xs ++ ys) →
      concatKeys (encodeElement elem coll) zs
        = .ok (zs.flatMap (keyOf (encodeElement elem coll))) := by
    intro zs hzs
    refine concatKeys_eq fun z hz => ?_
    obtain ⟨b, s, hs, _⟩ := hkey z (hzs z hz)
    exact enc_eq_keyOf hs
  have hcodes : ∀ x ∈ xs, ∀ y ∈ ys,
      Codes (cmp x y) (keyOf (encodeElement elem coll) x) (keyOf (encodeElement elem coll) y) := by
    intro x hx y hy
    obtain ⟨s, t, hs, ht, hst⟩ := hcoded x hx y hy
    rwa [keyOf_eq hs, keyOf_eq ht]
  have hfront : ∀ z ∈ xs ++ ys,
      ∃ b s, keyOf (encodeElement elem coll) z = b :: s ∧ 0x00 < b := by
    intro z hz
    obtain ⟨b, s, hs, hb⟩ := hkey z hz
    exact ⟨b, s, keyOf_eq hs, hb⟩
  have hall := codes_terminated hcodes hfront fun _ => codes_shape h h'
  refine ⟨_, _, ?_, ?_, hall⟩
  · rw [encodeArrayKey, hkeys fun _ => List.mem_append_left _]
    rfl
  · rw [encodeArrayKey, hkeys fun _ => List.mem_append_right _]
    rfl

/-- Arrays have keys in their order. -/
theorem coded_array {xs ys : List Value} (h : ShapeHolds dims lbounds) (h' : ShapeHolds dims' lbounds')
    (hxs : ∀ x ∈ xs, ElementHolds elem x) (hys : ∀ y ∈ ys, ElementHolds elem y) :
    ∃ s t, encodeArrayKey elem dims lbounds xs none = .ok s ∧
      encodeArrayKey elem dims' lbounds' ys none = .ok t ∧
      Codes (valueCmp (.array dims lbounds xs) (.array dims' lbounds' ys)) s t := by
  have hkey : ∀ z ∈ xs ++ ys, ∃ b s, encodeElement elem none z = .ok (b :: s) ∧ 0x00 < b := by
    intro z hz
    rcases List.mem_append.mp hz with hz | hz
    · exact element_front (hxs z hz)
    · exact element_front (hys z hz)
  have hall := coded_array_of h h' hkey fun x hx y hy => coded_element (hxs x hx) (hys y hy)
  rwa [listCompare_slotCmp, Ordering.then_assoc] at hall

mutual

/-- The values a key column of a type holds, NULL apart. -/
def WellFormed (ct : ColType) (v : Value) : Prop :=
  match ct, v with
  | .scalar s, v => Holds s v
  | .array (.scalar s), .array dims lbounds elements =>
    ShapeHolds dims lbounds ∧ ∀ e ∈ elements, ElementHolds s e
  | .range (.scalar s), .range r => RangeElem s ∧ RangeHolds s r
  | .composite fields, .composite vals => FieldsWellFormed fields vals
  | _, _ => False

/-- A value or a NULL for every field. -/
def FieldsWellFormed (fields : List ColType) (vals : List Value) : Prop :=
  match fields, vals with
  | [], [] => True
  | f :: fields, v :: vals => (v ≠ .null → WellFormed f v) ∧ FieldsWellFormed fields vals
  | _, _ => False

end

/-- The key of a slot of a composite. -/
def encodeSlot (f : ColType) (v : Value) : Except Failure Bytes :=
  match v with
  | .null => .ok [0x01]
  | v => (encodeKeyCt f v none).map fun key => 0x00 :: key

theorem encodeCompositeKey_cons (f : ColType) (fields : List ColType) (v : Value)
    (vals : List Value) : encodeCompositeKey (f :: fields) (v :: vals) = do
      let slot ← encodeSlot f v
      let rest ← encodeCompositeKey fields vals
      return slot ++ rest := by
  cases v <;> rfl

theorem encodeSlot_of_ne {f : ColType} {v : Value} (hv : v ≠ .null) :
    encodeSlot f v = (encodeKeyCt f v none).map (0x00 :: ·) := by
  unfold encodeSlot
  split
  · exact absurd rfl hv
  · rfl

/-- A slot codes the order of its values, NULL last, when their keys code theirs. -/
theorem coded_slot {f : ColType} (hxx : x ≠ .null → Coded (fun v => encodeKeyCt f v none) (valueCmp x x) x x)
    (hyy : y ≠ .null → Coded (fun v => encodeKeyCt f v none) (valueCmp y y) y y)
    (hxy : x ≠ .null → y ≠ .null → Coded (fun v => encodeKeyCt f v none) (valueCmp x y) x y) :
    Coded (encodeSlot f) (slotCmp x y) x y := by
  have hnull : encodeSlot f .null = .ok [0x01] := rfl
  by_cases hx : x = .null <;> by_cases hy : y = .null
  · subst hx hy
    exact coded_ok hnull hnull (codes_self _)
  · subst hx
    obtain ⟨_, t, _, ht, _⟩ := hyy hy
    rw [slotCmp, nullCmp_null_left hy]
    refine coded_ok hnull ((encodeSlot_of_ne hy).trans (congrArg (Except.map _) ht)) ?_
    exact codes_gt (by decide) _ _
  · subst hy
    obtain ⟨s, _, hs, _, _⟩ := hxx hx
    rw [slotCmp, nullCmp_null_right hx]
    refine coded_ok ((encodeSlot_of_ne hx).trans (congrArg (Except.map _) hs)) hnull ?_
    exact codes_lt (by decide) _ _
  · obtain ⟨s, t, hs, ht, hst⟩ := hxy hx hy
    rw [slotCmp, nullCmp_of_ne hx hy]
    exact coded_ok ((encodeSlot_of_ne hx).trans (congrArg (Except.map _) hs))
      ((encodeSlot_of_ne hy).trans (congrArg (Except.map _) ht)) (hst.cons 0x00)

mutual

/-- Values of one column type have keys in their order. -/
theorem coded_value (ct : ColType) {a b : Value} (ha : WellFormed ct a) (hb : WellFormed ct b) :
    Coded (fun v => encodeKeyCt ct v none) (valueCmp a b) a b := by
  match ct with
  | .scalar s =>
    obtain ⟨k, l, hk, hl, hkl⟩ := coded_scalar ha hb
    refine coded_ok ?_ ?_ hkl
    · rw [← hk]
      cases ha <;> rfl
    · rw [← hl]
      cases hb <;> rfl
  | .composite fields =>
    cases a <;> try exact ha.elim
    cases b <;> try exact hb.elim
    rename_i as bs
    obtain ⟨hlen, s, t, hs, ht, hst⟩ := coded_fields fields ha hb
    refine coded_ok hs ht ?_
    rw [valueCmp, compare_eq_iff_eq.mpr hlen, Ordering.then_eq]
    exact hst
  | .array elem =>
    cases elem <;> try exact ha.elim
    cases a <;> try exact ha.elim
    cases b <;> try exact hb.elim
    exact coded_array ha.1 hb.1 ha.2 hb.2
  | .range elem =>
    cases elem <;> try exact ha.elim
    cases a <;> try exact ha.elim
    cases b <;> try exact hb.elim
    exact coded_range ha.1 ha.2 hb.2

/-- The fields of two composites of one type have slots in their order. -/
theorem coded_fields (fields : List ColType) {as bs : List Value}
    (ha : FieldsWellFormed fields as) (hb : FieldsWellFormed fields bs) :
    as.length = bs.length ∧ Coded (encodeCompositeKey fields) (zipCmp as bs) as bs := by
  match fields, as, bs with
  | [], [], [] => exact ⟨rfl, coded_ok rfl rfl (codes_self _)⟩
  | [], _ :: _, _ => exact ha.elim
  | [], [], _ :: _ => exact hb.elim
  | _ :: _, [], _ => exact ha.elim
  | _ :: _, _ :: _, [] => exact hb.elim
  | f :: fields, a :: as, b :: bs =>
    obtain ⟨hlen, s, t, hs, ht, hst⟩ := coded_fields fields ha.2 hb.2
    obtain ⟨u, v, hu, hv, huv⟩ := coded_slot (fun h => coded_value f (ha.1 h) (ha.1 h))
      (fun h => coded_value f (hb.1 h) (hb.1 h)) fun h h' => coded_value f (ha.1 h) (hb.1 h')
    refine ⟨congrArg (· + 1) hlen, coded_ok (s := u ++ s) (t := v ++ t) ?_ ?_ ?_⟩
    · rw [encodeCompositeKey_cons, hu, hs]
      rfl
    · rw [encodeCompositeKey_cons, hv, ht]
      rfl
    · exact huv.append fun _ => hst

end

end Jed.Key

/-!
## Keys of rows

Keys of single values, and the concatenation of the keys of primary-key members.
-/

namespace Jed.Key

open KeyCodes

/-- A row's primary-key members. -/
def tuple (pk : List ℕ) (row : List Value) : List Value := pk.filterMap (row[·]?)

/-- A row holds a value of its type for every member, under the `C` collation. -/
def MembersWellFormed (pk : List ℕ) (colTypes : List ColType) (colls : List (Option Collation))
    (row : List Value) : Prop :=
  ∀ i ∈ pk, ∃ ct v, colTypes[i]? = some ct ∧ row[i]? = some v ∧ colls[i]? = some none ∧
    WellFormed ct v

/-- The keys of rows code the order of their tuples of members. -/
theorem coded_pk {pk : List ℕ} {colTypes : List ColType} {colls : List (Option Collation)}
    {a b : List Value} (ha : MembersWellFormed pk colTypes colls a)
    (hb : MembersWellFormed pk colTypes colls b) :
    Coded (encodePkKey pk colTypes colls) (listCompare valueCmp (tuple pk a) (tuple pk b)) a b := by
  induction pk with
  | nil => exact coded_ok rfl rfl (codes_self _)
  | cons i pk ih =>
    obtain ⟨s, t, hs, ht, hst⟩ := ih (fun j hj => ha j (List.mem_cons_of_mem i hj)) fun j hj =>
      hb j (List.mem_cons_of_mem i hj)
    obtain ⟨ct, x, hct, hx, hcoll, hwx⟩ := ha i List.mem_cons_self
    obtain ⟨ct', y, hct', hy, _, hwy⟩ := hb i List.mem_cons_self
    obtain rfl : ct = ct' := Option.some.inj (hct.symm.trans hct')
    obtain ⟨u, v, hu, hv, huv⟩ := coded_value ct hwx hwy
    unfold encodePkKey at hs ht
    refine coded_ok (s := u ++ s) (t := v ++ t) ?_ ?_ ?_
    · simp only [encodePkKey, concatKeys, hct, hx, hcoll, hs]
      rw [show encodeKeyCt ct x none = .ok u from hu]
      rfl
    · simp only [encodePkKey, concatKeys, hct, hy, hcoll, ht]
      rw [show encodeKeyCt ct y none = .ok v from hv]
      rfl
    · simp only [tuple, List.filterMap_cons, hx, hy]
      exact huv.append fun _ => hst

/-- Keys are in the order of what they are keys of: of two values of one column type, and of the
    primary keys of two rows. Equal keys are those of equal values, and no key is a proper prefix of
    another. -/
theorem keys_preserve_order (ct : ColType) (a b : Value) (ha : WellFormed ct a)
    (hb : WellFormed ct b) (pk : List ℕ) (colTypes : List ColType)
    (colls : List (Option Collation)) (rowA rowB : List Value)
    (hrowA : MembersWellFormed pk colTypes colls rowA)
    (hrowB : MembersWellFormed pk colTypes colls rowB) :
    (∃ s t, encodeKeyCt ct a none = .ok s ∧ encodeKeyCt ct b none = .ok t ∧
      lexCompare s t = valueCmp a b ∧ (s = t ↔ valueCmp a b = .eq) ∧ (s <+: t → s = t)) ∧
    ∃ s t, encodePkKey pk colTypes colls rowA = .ok s ∧ encodePkKey pk colTypes colls rowB = .ok t ∧
      lexCompare s t = listCompare valueCmp (tuple pk rowA) (tuple pk rowB) := by
  constructor
  · obtain ⟨s, t, hs, ht, hst⟩ := coded_value ct ha hb
    exact ⟨s, t, hs, ht, hst.lexCompare, hst.eq_iff, fun h => hst.eq_of_prefix (.inl h)⟩
  · obtain ⟨s, t, hs, ht, hst⟩ := coded_pk hrowA hrowB
    exact ⟨s, t, hs, ht, hst.lexCompare⟩

/-- A decimal under two display scales, as a value and in a row. -/
theorem keys_preserve_order_scales :
    ∃ s t, encodeKeyCt (.scalar .decimal) (.decimal ⟨false, 1, 15, by decide⟩) none = .ok s ∧
      encodeKeyCt (.scalar .decimal) (.decimal ⟨false, 2, 150, by decide⟩) none = .ok t ∧ s = t := by
  have hcaps : ∀ {scale coeff : ℕ}, coeff < 10 ^ 3 → scale ≤ 2 →
      (⟨false, scale, coeff, nofun⟩ : Decimal).InCaps := by
    intro scale coeff hcoeff hscale
    have hlen : (Nat.digits 10 coeff).length ≤ 3 := (Nat.digits_length_le_iff (by decide) _).mpr hcoeff
    have hlen : (⟨false, scale, coeff, nofun⟩ : Decimal).precision ≤ 3 := hlen
    refine ⟨?_, ?_⟩
    · have : (⟨false, scale, coeff, nofun⟩ : Decimal).precision - scale ≤ 3 := by omega
      exact this.trans (by decide)
    · exact le_trans hscale (by decide)
  have ha : WellFormed (.scalar .decimal) (.decimal ⟨false, 1, 15, by decide⟩) :=
    Holds.decimal (hcaps (by decide) (by decide))
  have hb : WellFormed (.scalar .decimal) (.decimal ⟨false, 2, 150, by decide⟩) :=
    Holds.decimal (hcaps (by decide) (by decide))
  have hrow : ∀ {v : Value}, WellFormed (.scalar .decimal) v →
      MembersWellFormed [0] [.scalar .decimal] [none] [v] := by
    intro v hv i hi
    obtain rfl : i = 0 := by simpa using hi
    exact ⟨_, _, rfl, rfl, rfl, hv⟩
  obtain ⟨⟨s, t, hs, ht, -, heq, -⟩, -⟩ := keys_preserve_order _ _ _ ha hb [0] [.scalar .decimal]
    [none] _ _ (hrow ha) (hrow hb)
  exact ⟨s, t, hs, ht, heq.mpr (by decide)⟩

end Jed.Key
