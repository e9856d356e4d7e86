import Jed.Compare.Scalars
import Jed.Key.Containers
import Jed.Range.Types

/-!
# One partition of the values of a type

On the values of a comparable type, `==`, the hash, `value_cmp`, the three-valued operators and
`not_distinct_from` agree. The claims on a type follow from those on its elements or fields: what has to
hold of two values is stated pairwise, NULL included, and the order of a type as a total order.
-/

namespace Jed.Compare

open KeyCodes Ranges Key Cuts

/-! ## Values of a type -/

/-- A range over elements of one type, as `RangeVal` documents it: the empty range has no bounds, and an
    unbounded end is exclusive. -/
structure RangeOk (elem : ScalarType) (r : Range) : Prop where
  empty : r.empty = true → r = .emptyRange
  lower : ∀ v ∈ r.lower, OfElem elem v
  upper : ∀ v ∈ r.upper, OfElem elem v
  lowerInc : r.lower = none → r.lowerInc = false
  upperInc : r.upper = none → r.upperInc = false

/-- The values of a scalar type; `json` and `jsonpath` are not comparable. -/
def OfScalar : ScalarType → Value → Prop
  | .int16, .int _ | .int32, .int _ | .int64, .int _ => True
  | .text, .text _ => True
  | .bool, .bool _ => True
  | .decimal, .decimal _ => True
  | .bytea, .bytea _ => True
  | .uuid, .uuid _ => True
  | .timestamp, .timestamp _ => True
  | .timestamptz, .timestamptz _ => True
  | .interval, .interval _ => True
  | .float32, .float32 _ => True
  | .float64, .float64 _ => True
  | .date, .date _ => True
  | .jsonb, .jsonb _ => True
  | _, _ => False

mutual

/-- The values of a comparable type that are not NULL. -/
def OfType : ColType → Value → Prop
  | .scalar s, v => OfScalar s v
  | .composite types, .composite fields => OfFields types fields
  | .array elem, .array dims lbounds elements =>
    lbounds.length = dims.length ∧ ∀ e ∈ elements, e = .null ∨ OfType elem e
  | .range (.scalar s), .range r => (∃ desc ∈ RANGES, desc.element = s) ∧ RangeOk s r
  | _, _ => False

/-- The fields of a composite value, each NULL or of its type. -/
def OfFields : List ColType → List Value → Prop
  | [], [] => True
  | t :: types, v :: fields => (v = .null ∨ OfType t v) ∧ OfFields types fields
  | _, _ => False

end

/-- NULL, or one of some values. -/
def OrNull (S : Value → Prop) (v : Value) : Prop := v = .null ∨ S v

mutual

/-- Neither NULL, nor a composite with a NULL among its fields, however deep. -/
def full : Value → Bool
  | .null => false
  | .composite fields => fieldsFull fields
  | _ => true

def fieldsFull : List Value → Bool
  | [] => true
  | v :: fields => full v && fieldsFull fields

end

attribute [grind =] OfType OfFields full fieldsFull

/-! ## Two values -/

/-- What has to hold of two values of one type. -/
structure PairOk (x y : Value) : Prop where
  eq_iff : x.eq y = true ↔ slotCmp x y = .eq
  hash : x.eq y = true → x.hash = y.hash
  elem : elemTotalCmp x y = slotCmp x y
  eq3 : full x = true → full y = true → x.eq3 y = bool3 (slotCmp x y == .eq)
  order3 : ∀ o, o ≠ .eq → full x = true → full y = true → x.order3 o y = bool3 (slotCmp x y == o)
  notDistinct : x.notDistinctFrom y = x.eq y

variable {y : Value}

theorem null_eq (hy : y ≠ .null) : Value.null.eq y = false := by
  cases y <;> first | exact absurd rfl hy | simp [Value.eq]

variable {x : Value}

theorem eq_null (hx : x ≠ .null) : x.eq .null = false := by
  cases x <;> first | exact absurd rfl hx | simp [Value.eq]

theorem pairOk_null : PairOk .null .null := by
  have heq : Value.null.eq .null = true := by simp [Value.eq]
  constructor
  · rw [heq]
    exact ⟨fun _ => rfl, fun _ => rfl⟩
  · intro _
    rfl
  · rfl
  · intro h
    cases h
  · intro _ _ h
    cases h
  · rw [heq]
    rfl

theorem pairOk_null_left (hy : y ≠ .null) : PairOk .null y := by
  have hcmp : slotCmp .null y = .gt := nullCmp_null_left hy _
  constructor
  · rw [null_eq hy, hcmp]
    decide
  · intro h
    rw [null_eq hy] at h
    cases h
  · rw [hcmp]
    cases y <;> first | exact absurd rfl hy | rfl
  · intro h
    cases h
  · intro _ _ h
    cases h
  · rw [null_eq hy]
    cases y <;> first | exact absurd rfl hy | rfl

theorem pairOk_null_right (hx : x ≠ .null) : PairOk x .null := by
  have hcmp : slotCmp x .null = .lt := nullCmp_null_right hx _
  constructor
  · rw [eq_null hx, hcmp]
    decide
  · intro h
    rw [eq_null hx] at h
    cases h
  · rw [hcmp]
    cases x <;> first | exact absurd rfl hx | rfl
  · intro _ h
    cases h
  · intro _ _ _ h
    cases h
  · rw [eq_null hx]
    cases x <;> first | exact absurd rfl hx | rfl

/-! ## Lists of values -/

/-- Of two lists, what has to hold of the values in each place. -/
def PairsOk (a b : List Value) : Prop := ∀ p ∈ a.zip b, PairOk p.1 p.2

variable {a b : List Value}

theorem pairsOk_cons :
    PairsOk (x :: a) (y :: b) ↔ PairOk x y ∧ PairsOk a b := List.forall_mem_cons

theorem valuesEq_iff (h : PairsOk a b) :
    valuesEq a b = true ↔ listCompare slotCmp a b = .eq := by
  induction a generalizing b with
  | nil => cases b <;> simp [valuesEq, listCompare]
  | cons x a ih =>
    cases b with
    | nil => simp [valuesEq, listCompare]
    | cons y b =>
      obtain ⟨hxy, hab⟩ := pairsOk_cons.mp h
      rw [valuesEq, listCompare, Bool.and_eq_true, Ordering.then_eq_eq, hxy.eq_iff, ih hab]

theorem valuesHash_of_eq (h : PairsOk a b) (heq : valuesEq a b = true) :
    valuesHash a = valuesHash b := by
  induction a generalizing b with
  | nil =>
    cases b with
    | nil => rfl
    | cons y b => simp [valuesEq] at heq
  | cons x a ih =>
    cases b with
    | nil => simp [valuesEq] at heq
    | cons y b =>
      obtain ⟨hxy, hab⟩ := pairsOk_cons.mp h
      rw [valuesEq, Bool.and_eq_true] at heq
      rw [valuesHash, valuesHash, hxy.hash heq.1, ih hab heq.2]

theorem length_of_valuesEq (h : valuesEq a b = true) : a.length = b.length := by
  induction a generalizing b with
  | nil =>
    cases b with
    | nil => rfl
    | cons y b => simp [valuesEq] at h
  | cons x a ih =>
    cases b with
    | nil => simp [valuesEq] at h
    | cons y b =>
      rw [valuesEq, Bool.and_eq_true] at h
      rw [List.length_cons, List.length_cons, ih h.2]

theorem elemsTotalCmp_eq (h : PairsOk a b) : elemsTotalCmp a b = zipCmp a b := by
  induction a generalizing b with
  | nil => cases b <;> rfl
  | cons x a ih =>
    cases b with
    | nil => rfl
    | cons y b =>
      obtain ⟨hxy, hab⟩ := pairsOk_cons.mp h
      rw [elemsTotalCmp, zipCmp, hxy.elem, ih hab, slotCmp]

theorem fieldsEq3_eq (h : PairsOk a b) (ha : fieldsFull a = true)
    (hb : fieldsFull b = true) (hlen : a.length = b.length) :
    Value.fieldsEq3 a b false = bool3 (listCompare slotCmp a b == .eq) := by
  induction a generalizing b with
  | nil =>
    cases b with
    | nil => rfl
    | cons y b => cases hlen
  | cons x a ih =>
    cases b with
    | nil => cases hlen
    | cons y b =>
      obtain ⟨hxy, hab⟩ := pairsOk_cons.mp h
      rw [fieldsFull, Bool.and_eq_true] at ha hb
      rw [Value.fieldsEq3, listCompare, hxy.eq3 ha.1 hb.1]
      cases slotCmp x y with
      | lt => rfl
      | eq => exact ih hab ha.2 hb.2 (Nat.succ.inj hlen)
      | gt => rfl

theorem compositeOrder3_eq (h : PairsOk a b) (ha : fieldsFull a = true)
    (hb : fieldsFull b = true) (hlen : a.length = b.length) {o : Ordering} (ho : o ≠ .eq) :
    Value.compositeOrder3 o a b = bool3 (listCompare slotCmp a b == o) := by
  induction a generalizing b with
  | nil =>
    cases b with
    | nil => cases o <;> first | rfl | exact absurd rfl ho
    | cons y b => cases hlen
  | cons x a ih =>
    cases b with
    | nil => cases hlen
    | cons y b =>
      obtain ⟨hxy, hab⟩ := pairsOk_cons.mp h
      rw [fieldsFull, Bool.and_eq_true] at ha hb
      have horder := hxy.order3 o ho ha.1 hb.1
      rw [Value.compositeOrder3, listCompare, hxy.eq3 ha.1 hb.1]
      cases hc : slotCmp x y with
      | lt =>
        rw [hc] at horder
        exact horder
      | eq => exact ih hab ha.2 hb.2 (Nat.succ.inj hlen)
      | gt =>
        rw [hc] at horder
        exact horder

theorem fieldsNotDistinct_eq (h : PairsOk a b) (hlen : a.length = b.length) :
    Value.fieldsNotDistinct a b = valuesEq a b := by
  induction a generalizing b with
  | nil =>
    cases b with
    | nil => simp [Value.fieldsNotDistinct, valuesEq]
    | cons y b => cases hlen
  | cons x a ih =>
    cases b with
    | nil => cases hlen
    | cons y b =>
      obtain ⟨hxy, hab⟩ := pairsOk_cons.mp h
      rw [Value.fieldsNotDistinct, valuesEq, hxy.notDistinct, ih hab (Nat.succ.inj hlen)]

/-! ## Types -/

/-- What has to hold of the values of a type. -/
structure Coheres (S : Value → Prop) : Prop where
  ne_null : ∀ v, S v → v ≠ .null
  total : TotalOn S valueCmp
  pair : ∀ a b, S a → S b → PairOk a b

theorem slotCmp_of_ne (hx : x ≠ .null) (hy : y ≠ .null) :
    slotCmp x y = valueCmp x y := nullCmp_of_ne hx hy _

variable {S T : Value → Prop}

theorem Coheres.mono (h : Coheres S) (hs : ∀ v, T v → S v) : Coheres T where
  ne_null v hv := h.ne_null v (hs v hv)
  total := h.total.mono hs
  pair a b ha hb := h.pair a b (hs a ha) (hs b hb)

theorem Coheres.pair_orNull (h : Coheres S) {a b : Value} (ha : OrNull S a) (hb : OrNull S b) : PairOk a b := by
  cases ha with
  | inl ha =>
    cases hb with
    | inl hb =>
      rw [ha, hb]
      exact pairOk_null
    | inr hb =>
      rw [ha]
      exact pairOk_null_left (h.ne_null b hb)
  | inr ha =>
    cases hb with
    | inl hb =>
      rw [hb]
      exact pairOk_null_right (h.ne_null a ha)
    | inr hb => exact h.pair a b ha hb

/-- NULL has a place of its own beside the others. -/
theorem totalOn_orNull {cmp : Value → Value → Ordering} (h : TotalOn S cmp)
    (nullRank : ℕ) (hrank : nullRank ≠ 1) (hnull : cmp .null .null = .eq)
    (hleft : ∀ y, y ≠ .null → cmp .null y = compare nullRank 1)
    (hright : ∀ x, x ≠ .null → cmp x .null = compare 1 nullRank) : TotalOn (OrNull S) cmp := by
  classical
  have hother : ∀ v : Value, v ≠ .null → (if v = .null then nullRank else 1) = 1 := fun v hv => if_neg hv
  apply TotalOn.ranked fun v => if v = .null then nullRank else 1
  · intro k
    by_cases hk : k = 1
    · have hof : ∀ v, OrNull S v ∧ (if v = .null then nullRank else 1) = k → S v := by
        rintro v ⟨hv, hvk⟩
        cases hv with
        | inl hv =>
          rw [if_pos hv, hk] at hvk
          exact absurd hvk hrank
        | inr hv => exact hv
      exact h.mono hof
    · have hof : ∀ v, OrNull S v ∧ (if v = .null then nullRank else 1) = k → v = .null := by
        rintro v ⟨-, hvk⟩
        by_contra hv
        exact hk (hvk.symm.trans (hother v hv))
      constructor
      · intro a b ha hb
        rw [hof a ha, hof b hb, hnull]
        rfl
      · intro a b c ha _ hc _ _
        rw [hof a ha, hof c hc, hnull]
        decide
  · intro a b _ _ hne
    by_cases ha : a = .null
    · by_cases hb : b = .null
      · exact absurd (by rw [ha, hb]) hne
      · rw [if_pos ha, hother b hb, ha, hleft b hb]
    · by_cases hb : b = .null
      · rw [if_pos hb, hother a ha, hb, hright a ha]
      · exact absurd (by rw [hother a ha, hother b hb]) hne

theorem Coheres.total_slot (h : Coheres S) : TotalOn (OrNull S) slotCmp := by
  have hslot : TotalOn S slotCmp :=
    h.total.congr fun a b ha hb => slotCmp_of_ne (h.ne_null a ha) (h.ne_null b hb)
  apply totalOn_orNull hslot 2 (by decide) rfl
  · intro y hy
    exact nullCmp_null_left hy _
  · intro x hx
    exact nullCmp_null_right hx _

/-- Values of one constructor, compared as what it holds. -/
structure Plain {β : Type} (R : β → Prop) (mk : β → Value) (cmp : β → β → Ordering) : Prop where
  ne_null : ∀ x, mk x ≠ .null
  total : TotalOn R cmp
  eq_iff : ∀ x y, R x → R y → ((mk x).eq (mk y) = true ↔ cmp x y = .eq)
  hash : ∀ x y, (mk x).eq (mk y) = true → (mk x).hash = (mk y).hash
  eq3 : ∀ x y, R x → R y → (mk x).eq3 (mk y) = bool3 (cmp x y == .eq)
  arms : ∀ o x y, valueCmp (mk x) (mk y) = cmp x y ∧ (mk x).order3 o (mk y) = bool3 (cmp x y == o) ∧
    (mk x).notDistinctFrom (mk y) = ((mk x).eq3 (mk y) == .true) ∧
    elemTotalCmp (mk x) (mk y) = if (mk x).eq3 (mk y) = .true then .eq
      else if (mk x).order3 .lt (mk y) = .true then .lt else .gt

theorem Plain.coheres {β : Type} {R : β → Prop} {mk : β → Value} {cmp : β → β → Ordering}
    (h : Plain R mk cmp) (hs : ∀ v, S v → ∃ x, R x ∧ mk x = v) : Coheres S where
  ne_null := by
    intro v hv
    obtain ⟨x, -, rfl⟩ := hs v hv
    exact h.ne_null x
  total := h.total.image hs fun x y _ _ => (h.arms .eq x y).1
  pair := by
    intro a b ha hb
    obtain ⟨x, hx, rfl⟩ := hs a ha
    obtain ⟨y, hy, rfl⟩ := hs b hb
    have hcmp : slotCmp (mk x) (mk y) = cmp x y := by
      rw [slotCmp_of_ne (h.ne_null x) (h.ne_null y), (h.arms .eq x y).1]
    constructor
    · rw [hcmp]
      exact h.eq_iff x y hx hy
    · exact h.hash x y
    · rw [hcmp, (h.arms .lt x y).2.2.2, h.eq3 x y hx hy, (h.arms .lt x y).2.1]
      cases cmp x y <;> rfl
    · intro _ _
      rw [hcmp]
      exact h.eq3 x y hx hy
    · intro o _ _ _
      rw [hcmp]
      exact (h.arms o x y).2.1
    · rw [(h.arms .eq x y).2.2.1, h.eq3 x y hx hy]
      have heq := h.eq_iff x y hx hy
      cases hc : cmp x y <;> cases he : (mk x).eq (mk y) <;> simp [hc, he, bool3] at heq ⊢

theorem compare_beq {ι : Type} [LinearOrder ι] [BEq ι] [LawfulBEq ι] (x y : ι) :
    (compare x y == .eq) = (x == y) := by
  rw [Bool.eq_iff_iff, beq_iff_eq, beq_iff_eq, compare_eq_iff_eq]

theorem lexCompare_beq (s t : Bytes) : (lexCompare s t == .eq) = (s == t) := by
  rw [Bool.eq_iff_iff, beq_iff_eq, beq_iff_eq, lexCompare_eq_iff]

theorem plain_int : Plain (fun _ => True) Value.int compare where
  ne_null := nofun
  arms _ _ _ := ⟨rfl, rfl, rfl, rfl⟩
  total := totalOn_compare id
  eq_iff _ _ _ _ := by simp [Value.eq]
  hash x y h := by
    simp only [Value.eq, beq_iff_eq] at h
    rw [h]
  eq3 _ _ _ _ := rfl

theorem plain_bool : Plain (fun _ => True) Value.bool compare where
  ne_null := nofun
  arms _ _ _ := ⟨rfl, rfl, rfl, rfl⟩
  total := totalOn_compare id
  eq_iff _ _ _ _ := by simp [Value.eq]
  hash x y h := by
    simp only [Value.eq, beq_iff_eq] at h
    rw [h]
  eq3 x y _ _ := by
    rw [compare_beq]
    rfl

theorem plain_float32 : Plain (fun _ => True) Value.float32 binary32.totalCmp where
  ne_null := nofun
  arms _ _ _ := ⟨rfl, rfl, rfl, rfl⟩
  total := @FloatFormat.totalOn_totalCmp binary32 _
  eq_iff x y _ _ := by
    simp only [Value.eq, beq_iff_eq]
    exact @FloatFormat.canonBits_eq_iff binary32 x y
  hash x y h := by
    simp only [Value.eq, beq_iff_eq] at h
    simp only [Value.hash, Value.discriminant, h]
  eq3 _ _ _ _ := rfl

theorem plain_float64 : Plain (fun _ => True) Value.float64 binary64.totalCmp where
  ne_null := nofun
  arms _ _ _ := ⟨rfl, rfl, rfl, rfl⟩
  total := @FloatFormat.totalOn_totalCmp binary64 _
  eq_iff x y _ _ := by
    simp only [Value.eq, beq_iff_eq]
    exact @FloatFormat.canonBits_eq_iff binary64 x y
  hash x y h := by
    simp only [Value.eq, beq_iff_eq] at h
    simp only [Value.hash, Value.discriminant, h]
  eq3 _ _ _ _ := rfl

theorem plain_text : Plain (fun _ => True) Value.text lexCompare where
  ne_null := nofun
  arms _ _ _ := ⟨rfl, rfl, rfl, rfl⟩
  total := totalOn_lexCompare
  eq_iff _ _ _ _ := by rw [Value.eq, beq_iff_eq, lexCompare_eq_iff]
  hash x y h := by
    simp only [Value.eq, beq_iff_eq] at h
    rw [h]
  eq3 x y _ _ := by
    rw [lexCompare_beq]
    rfl

theorem plain_decimal : Plain (fun _ => True) Value.decimal Decimal.cmpValue where
  ne_null := nofun
  arms _ _ _ := ⟨rfl, rfl, rfl, rfl⟩
  total := Decimal.totalOn_cmpValue
  eq_iff _ _ _ _ := by rw [Value.eq, Decimal.eq_iff]
  hash x y h := by
    rw [Value.eq] at h
    simp only [Value.hash, Value.discriminant, Decimal.hash_of_eq h]
  eq3 _ _ _ _ := rfl

theorem plain_bytea : Plain (fun _ => True) Value.bytea lexCompare where
  ne_null := nofun
  arms _ _ _ := ⟨rfl, rfl, rfl, rfl⟩
  total := totalOn_lexCompare
  eq_iff _ _ _ _ := by rw [Value.eq, beq_iff_eq, lexCompare_eq_iff]
  hash x y h := by
    simp only [Value.eq, beq_iff_eq] at h
    rw [h]
  eq3 x y _ _ := by
    rw [lexCompare_beq]
    rfl

theorem plain_uuid : Plain (fun _ => True) Value.uuid lexCompare where
  ne_null := nofun
  arms _ _ _ := ⟨rfl, rfl, rfl, rfl⟩
  total := totalOn_lexCompare
  eq_iff _ _ _ _ := by rw [Value.eq, beq_iff_eq, lexCompare_eq_iff]
  hash x y h := by
    simp only [Value.eq, beq_iff_eq] at h
    rw [h]
  eq3 x y _ _ := by
    rw [lexCompare_beq]
    rfl

theorem plain_timestamp : Plain (fun _ => True) Value.timestamp compare where
  ne_null := nofun
  arms _ _ _ := ⟨rfl, rfl, rfl, rfl⟩
  total := totalOn_compare id
  eq_iff _ _ _ _ := by simp [Value.eq]
  hash x y h := by
    simp only [Value.eq, beq_iff_eq] at h
    rw [h]
  eq3 x y _ _ := by
    rw [compare_beq]
    rfl

theorem plain_timestamptz : Plain (fun _ => True) Value.timestamptz compare where
  ne_null := nofun
  arms _ _ _ := ⟨rfl, rfl, rfl, rfl⟩
  total := totalOn_compare id
  eq_iff _ _ _ _ := by simp [Value.eq]
  hash x y h := by
    simp only [Value.eq, beq_iff_eq] at h
    rw [h]
  eq3 x y _ _ := by
    rw [compare_beq]
    rfl

theorem plain_date : Plain (fun _ => True) Value.date compare where
  ne_null := nofun
  arms _ _ _ := ⟨rfl, rfl, rfl, rfl⟩
  total := totalOn_compare id
  eq_iff _ _ _ _ := by simp [Value.eq]
  hash x y h := by
    simp only [Value.eq, beq_iff_eq] at h
    rw [h]
  eq3 x y _ _ := by
    rw [compare_beq]
    rfl

theorem plain_interval : Plain (fun _ => True) Value.interval (fun x y => compare (span x) (span y)) where
  ne_null := nofun
  arms _ _ _ := ⟨rfl, rfl, rfl, rfl⟩
  total := totalOn_compare span
  eq_iff _ _ _ _ := by simp [Value.eq]
  hash x y h := by
    simp only [Value.eq, beq_iff_eq] at h
    simp only [Value.hash, Value.discriminant, h]
  eq3 x y _ _ := by
    rw [compare_beq]
    rfl

theorem jsonCmp_beq (a b : JsonNode) : (a.cmp b == .eq) = a.eq b := by
  rw [Bool.eq_iff_iff, beq_iff_eq, JsonNode.cmp_eq_iff]

theorem plain_jsonb : Plain (fun _ => True) Value.jsonb JsonNode.cmp where
  ne_null := nofun
  arms _ _ _ := ⟨rfl, rfl, rfl, rfl⟩
  total := JsonNode.totalOn_cmp
  eq_iff x y _ _ := by rw [Value.eq, JsonNode.cmp_eq_iff]
  hash x y h := by
    rw [Value.eq] at h
    simp only [Value.hash, Value.discriminant, JsonNode.hash_of_eq x y h]
  eq3 x y _ _ := by
    rw [jsonCmp_beq]
    rfl

theorem coheres_scalar (s : ScalarType) : Coheres (OfScalar s) := by
  cases s with
  | int16 | int32 | int64 =>
    exact plain_int.coheres fun v hv => by cases v <;> first | exact ⟨_, trivial, rfl⟩ | cases hv
  | text => exact plain_text.coheres fun v hv => by cases v <;> first | exact ⟨_, trivial, rfl⟩ | cases hv
  | bool => exact plain_bool.coheres fun v hv => by cases v <;> first | exact ⟨_, trivial, rfl⟩ | cases hv
  | decimal =>
    exact plain_decimal.coheres fun v hv => by cases v <;> first | exact ⟨_, trivial, rfl⟩ | cases hv
  | bytea =>
    exact plain_bytea.coheres fun v hv => by cases v <;> first | exact ⟨_, trivial, rfl⟩ | cases hv
  | uuid => exact plain_uuid.coheres fun v hv => by cases v <;> first | exact ⟨_, trivial, rfl⟩ | cases hv
  | timestamp =>
    exact plain_timestamp.coheres fun v hv => by cases v <;> first | exact ⟨_, trivial, rfl⟩ | cases hv
  | timestamptz =>
    exact plain_timestamptz.coheres fun v hv => by
      cases v <;> first | exact ⟨_, trivial, rfl⟩ | cases hv
  | interval =>
    exact plain_interval.coheres fun v hv => by cases v <;> first | exact ⟨_, trivial, rfl⟩ | cases hv
  | float32 =>
    exact plain_float32.coheres fun v hv => by cases v <;> first | exact ⟨_, trivial, rfl⟩ | cases hv
  | float64 =>
    exact plain_float64.coheres fun v hv => by cases v <;> first | exact ⟨_, trivial, rfl⟩ | cases hv
  | date => exact plain_date.coheres fun v hv => by cases v <;> first | exact ⟨_, trivial, rfl⟩ | cases hv
  | jsonb =>
    exact plain_jsonb.coheres fun v hv => by cases v <;> first | exact ⟨_, trivial, rfl⟩ | cases hv
  | json | jsonPath => exact plain_int.coheres fun v hv => by cases v <;> cases hv

/-! ## Ranges -/

variable {elem : ScalarType}

theorem elemCmp_eq_iff (hx : OfElem elem x) (hy : OfElem elem y) :
    elemCmp x y = .eq ↔ x.eq y = true := by
  cases elem <;> cases x <;> simp only [OfElem] at hx <;> cases y <;> simp only [OfElem] at hy <;>
    simp [elemCmp, Value.eq, Decimal.eq_iff]

theorem hash_of_elem (hx : OfElem elem x) (hy : OfElem elem y) (h : x.eq y = true) : x.hash = y.hash := by
  have hof : ∀ v, OfElem elem v → OfScalar elem v := by
    intro v hv
    cases elem <;> cases v <;> trivial
  exact ((coheres_scalar elem).pair x y (hof x hx) (hof y hy)).hash h

/-- Bounds on one side are equal when they are the same. -/
theorem cmpBound_eq_iff {v w : Option Value} {inc inc' : Bool}
    (isLower : Bool) (hv : ∀ x ∈ v, OfElem elem x) (hw : ∀ x ∈ w, OfElem elem x) (hinc : v = none → inc = false)
    (hinc' : w = none → inc' = false) :
    cmpBound v inc w inc' isLower = .eq ↔ boundEq v w = true ∧ inc = inc' := by
  cases v with
  | none =>
    cases w with
    | none => simp [cmpBound, cmpBounds, boundEq, hinc, hinc']
    | some y => cases isLower <;> simp [cmpBound, cmpBounds, boundEq]
  | some x =>
    cases w with
    | none => cases isLower <;> simp [cmpBound, cmpBounds, boundEq]
    | some y =>
      rw [boundEq, ← elemCmp_eq_iff (hv x rfl) (hw y rfl)]
      simp only [cmpBound, cmpBounds]
      cases elemCmp x y <;> cases inc <;> cases inc' <;> cases isLower <;> simp

theorem boundHash_of_eq {v w : Option Value} (hv : ∀ x ∈ v, OfElem elem x)
    (hw : ∀ x ∈ w, OfElem elem x) (h : boundEq v w = true) : boundHash v = boundHash w := by
  cases v with
  | none =>
    cases w with
    | none => rfl
    | some y => simp [boundEq] at h
  | some x =>
    cases w with
    | none => simp [boundEq] at h
    | some y =>
      rw [boundEq] at h
      rw [boundHash, boundHash, hash_of_elem (hv x rfl) (hw y rfl) h]

theorem rangeTotalCmp_of_bounds {a b : Range} (ha : a.empty = false) (hb : b.empty = false) :
    rangeTotalCmp a b = (cmpBound a.lower a.lowerInc b.lower b.lowerInc true).then
      (cmpBound a.upper a.upperInc b.upper b.upperInc false) := by
  simp only [rangeTotalCmp, ha, hb]
  cases cmpBound a.lower a.lowerInc b.lower b.lowerInc true <;> rfl

theorem rangeTotalCmp_eq_iff {a b : Range} (ha : RangeOk elem a)
    (hb : RangeOk elem b) : rangeTotalCmp a b = .eq ↔ rangeEq a b = true := by
  cases hae : a.empty <;> cases hbe : b.empty
  · have hlower := cmpBound_eq_iff true ha.lower hb.lower ha.lowerInc hb.lowerInc
    have hupper := cmpBound_eq_iff false ha.upper hb.upper ha.upperInc hb.upperInc
    rw [rangeTotalCmp_of_bounds hae hbe, Ordering.then_eq_eq, hlower, hupper]
    obtain ⟨_, _, _, _, _⟩ := a
    obtain ⟨_, _, _, _, _⟩ := b
    simp only at hae hbe
    simp only [rangeEq, hae, hbe, Bool.and_eq_true, beq_iff_eq]
    tauto
  · obtain ⟨_, _, _, _, _⟩ := a
    obtain ⟨_, _, _, _, _⟩ := b
    simp only at hae hbe
    simp [rangeTotalCmp, rangeEq, hae, hbe]
  · obtain ⟨_, _, _, _, _⟩ := a
    obtain ⟨_, _, _, _, _⟩ := b
    simp only at hae hbe
    simp [rangeTotalCmp, rangeEq, hae, hbe]
  · rw [ha.empty hae, hb.empty hbe]
    simp [rangeTotalCmp, rangeEq, boundEq, RangeVal.emptyRange]

theorem rangeHash_of_eq {a b : Range} (ha : RangeOk elem a)
    (hb : RangeOk elem b) (h : rangeEq a b = true) : rangeHash a = rangeHash b := by
  obtain ⟨_, _, _, _, _⟩ := a
  obtain ⟨_, _, _, _, _⟩ := b
  simp only [rangeEq, Bool.and_eq_true, beq_iff_eq] at h
  obtain ⟨⟨⟨⟨hempty, hlower⟩, hupper⟩, hlowerInc⟩, hupperInc⟩ := h
  rw [rangeHash, rangeHash, hempty, hlowerInc, hupperInc, boundHash_of_eq ha.lower hb.lower hlower,
    boundHash_of_eq ha.upper hb.upper hupper]

section

variable {ι : Type} [LinearOrder ι] {desc : RangeDesc} {F : Frame ι (Cut ι)} {val : Value → ι}

/-- Ranges that are not empty compare as the cuts they start and end at. -/
theorem totalOn_bounds (h : Reads desc F val) :
    TotalOn (fun r => RangeOk desc.element r ∧ r.empty = false) rangeTotalCmp := by
  have hcuts : TotalOn (fun r : Range => RangeOk desc.element r ∧ r.empty = false) fun a b =>
      (compare (cutOf true (a.lower.map val) a.lowerInc) (cutOf true (b.lower.map val) b.lowerInc)).then
        (compare (cutOf false (a.upper.map val) a.upperInc)
          (cutOf false (b.upper.map val) b.upperInc)) :=
    (totalOn_compare _).andThen (totalOn_compare _)
  apply hcuts.congr
  rintro a b ⟨ha, hae⟩ ⟨hb, hbe⟩
  rw [rangeTotalCmp_of_bounds hae hbe, cmpBound, cmpBound, h.cmpBounds ha.lower hb.lower,
    h.cmpBounds ha.upper hb.upper]

end

theorem totalOn_rangeTotalCmp {desc : RangeDesc} (hdesc : desc ∈ RANGES) :
    TotalOn (RangeOk desc.element) rangeTotalCmp := by
  have hbounds : TotalOn (fun r => RangeOk desc.element r ∧ r.empty = false) rangeTotalCmp := by
    cases hd : desc.discrete with
    | true => exact totalOn_bounds (reads_int hdesc hd)
    | false => exact totalOn_bounds (reads_rat hdesc hd)
  apply TotalOn.ranked fun r => if r.empty then 0 else 1
  · intro k
    by_cases hk : k = 0
    · have hof : ∀ r, RangeOk desc.element r ∧ (if r.empty then 0 else 1) = k → r.empty = true := by
        rintro r ⟨-, hr⟩
        rw [hk] at hr
        by_contra he
        rw [if_neg he] at hr
        cases hr
      constructor
      · intro a b ha hb
        simp only [rangeTotalCmp, hof a ha, hof b hb]
        rfl
      · intro a b c ha _ hc _ _
        simp only [rangeTotalCmp, hof a ha, hof c hc]
        decide
    · apply hbounds.mono
      rintro r ⟨hr, hrk⟩
      refine ⟨hr, ?_⟩
      by_contra he
      rw [Bool.not_eq_false] at he
      rw [if_pos he] at hrk
      exact hk hrk.symm
  · intro a b _ _ hne
    cases hae : a.empty <;> cases hbe : b.empty <;> simp [rangeTotalCmp, hae, hbe] at hne ⊢ <;> rfl

theorem rangeCmp_beq {a b : Range} (ha : RangeOk elem a) (hb : RangeOk elem b) :
    (rangeTotalCmp a b == .eq) = rangeEq a b := by
  rw [Bool.eq_iff_iff, beq_iff_eq, rangeTotalCmp_eq_iff ha hb]

/-- The ranges of a type. -/
theorem coheres_range {desc : RangeDesc} (hdesc : desc ∈ RANGES)
    (hs : ∀ v, S v → ∃ r, RangeOk desc.element r ∧ .range r = v) : Coheres S := by
  constructor
  · intro v hv
    obtain ⟨r, -, rfl⟩ := hs v hv
    exact nofun
  · exact (totalOn_rangeTotalCmp hdesc).image hs fun _ _ _ _ => rfl
  · intro a b ha hb
    obtain ⟨x, hx, rfl⟩ := hs a ha
    obtain ⟨y, hy, rfl⟩ := hs b hb
    have hcmp : slotCmp (.range x) (.range y) = rangeTotalCmp x y := rfl
    have heq3 : (Value.range x).eq3 (.range y) = bool3 (rangeTotalCmp x y == .eq) := by
      rw [rangeCmp_beq hx hy]
      rfl
    have horder : ∀ o, (Value.range x).order3 o (.range y) = bool3 (rangeTotalCmp x y == o) :=
      fun _ => rfl
    constructor
    · rw [hcmp, Value.eq]
      exact (rangeTotalCmp_eq_iff hx hy).symm
    · intro h
      rw [Value.eq] at h
      simp only [Value.hash, Value.discriminant, rangeHash_of_eq hx hy h]
    · have helem : elemTotalCmp (.range x) (.range y) = if (Value.range x).eq3 (.range y) = .true then .eq
          else if (Value.range x).order3 .lt (.range y) = .true then .lt else .gt := rfl
      rw [hcmp, helem, heq3, horder]
      cases rangeTotalCmp x y <;> rfl
    · intro _ _
      exact heq3
    · intro o _ _ _
      exact horder o
    · rw [Value.eq]
      rfl

/-! ## Arrays -/

theorem listCompare_eq_iff {α : Type} {cmp : α → α → Ordering} (h : ∀ x y, cmp x y = .eq ↔ x = y)
    {a b : List α} : listCompare cmp a b = .eq ↔ a = b := by
  induction a generalizing b with
  | nil => cases b <;> simp [listCompare]
  | cons x a ih =>
    cases b with
    | nil => simp [listCompare]
    | cons y b => rw [listCompare, Ordering.then_eq_eq, h, ih, List.cons.injEq]

theorem dimCmp_eq_iff (a b : ℕ × ℤ) : dimCmp a b = .eq ↔ a = b := by
  rw [dimCmp, Ordering.then_eq_eq, compare_eq_iff_eq, compare_eq_iff_eq, Prod.ext_iff]

theorem totalOn_dimCmp : TotalOn (fun _ => True) dimCmp :=
  (totalOn_compare Prod.fst).andThen (totalOn_compare Prod.snd)

/-- The shapes of two arrays with as many lower bounds as dimensions. -/
theorem shape_eq_iff {dims dims' : List ℕ} {lbounds lbounds' : List ℤ}
    (h : lbounds.length = dims.length) (h' : lbounds'.length = dims'.length) :
    (compare dims.length dims'.length).then
        (listCompare dimCmp (dims.zip lbounds) (dims'.zip lbounds')) = .eq ↔
      dims = dims' ∧ lbounds = lbounds' := by
  rw [Ordering.then_eq_eq, compare_eq_iff_eq, listCompare_eq_iff dimCmp_eq_iff]
  constructor
  · rintro ⟨-, hzip⟩
    have hfst := congrArg (List.map Prod.fst) hzip
    have hsnd := congrArg (List.map Prod.snd) hzip
    rw [List.map_fst_zip h.ge, List.map_fst_zip h'.ge] at hfst
    rw [List.map_snd_zip h.le, List.map_snd_zip h'.le] at hsnd
    exact ⟨hfst, hsnd⟩
  · rintro ⟨rfl, rfl⟩
    exact ⟨rfl, rfl⟩

theorem valueCmp_array (dims dims' : List ℕ) (lbounds lbounds' : List ℤ) (es es' : List Value) :
    valueCmp (.array dims lbounds es) (.array dims' lbounds' es') =
      (listCompare slotCmp es es').then ((compare dims.length dims'.length).then
        (listCompare dimCmp (dims.zip lbounds) (dims'.zip lbounds'))) := by
  rw [listCompare_slotCmp, Ordering.then_assoc]
  rfl

theorem Coheres.array (h : Coheres S)
    (ht : ∀ v, T v → ∃ a : List ℕ × List ℤ × List Value, (a.2.1.length = a.1.length ∧
      ∀ e ∈ a.2.2, OrNull S e) ∧ .array a.1 a.2.1 a.2.2 = v) : Coheres T := by
  constructor
  · intro v hv
    obtain ⟨a, -, rfl⟩ := ht v hv
    exact nofun
  · have helems : TotalOn (fun a : List ℕ × List ℤ × List Value => ∀ e ∈ a.2.2, OrNull S e)
        fun a b => listCompare slotCmp a.2.2 b.2.2 := 
      h.total_slot.list.comap fun a : List ℕ × List ℤ × List Value => a.2.2
    have hshape : TotalOn (fun a : List ℕ × List ℤ × List Value => ∀ e ∈ a.2.2, OrNull S e) fun a b =>
        (compare a.1.length b.1.length).then
          (listCompare dimCmp (a.1.zip a.2.1) (b.1.zip b.2.1)) :=
      (totalOn_compare fun a => a.1.length).andThen
        ((totalOn_dimCmp.list.comap fun a : List ℕ × List ℤ × List Value => a.1.zip a.2.1).mono
          fun _ _ _ _ => trivial)
    apply ((helems.andThen hshape).mono fun _ ha => ha.2).image ht
    intro a b _ _
    exact valueCmp_array _ _ _ _ _ _
  · intro v w hv hw
    obtain ⟨⟨dims, lbounds, es⟩, ⟨hshape, hes⟩, rfl⟩ := ht v hv
    obtain ⟨⟨dims', lbounds', es'⟩, ⟨hshape', hes'⟩, rfl⟩ := ht w hw
    dsimp only at hshape hes hshape' hes' ⊢
    have hpairs : PairsOk es es' := fun p hp =>
      h.pair_orNull (hes _ (List.of_mem_zip hp).1) (hes' _ (List.of_mem_zip hp).2)
    have hcmp : slotCmp (.array dims lbounds es) (.array dims' lbounds' es') =
        valueCmp (.array dims lbounds es) (.array dims' lbounds' es') := rfl
    have helem : elemTotalCmp (.array dims lbounds es) (.array dims' lbounds' es') =
        valueCmp (.array dims lbounds es) (.array dims' lbounds' es') := by
      rw [elemTotalCmp, elemsTotalCmp_eq hpairs]
      rfl
    have heq : (Value.array dims lbounds es).eq (.array dims' lbounds' es') = true ↔
        valueCmp (.array dims lbounds es) (.array dims' lbounds' es') = .eq := by
      rw [valueCmp_array, Ordering.then_eq_eq, shape_eq_iff hshape hshape', ← valuesEq_iff hpairs,
        Value.eq, Bool.and_eq_true, Bool.and_eq_true, beq_iff_eq, beq_iff_eq]
      tauto
    constructor
    · rw [hcmp]
      exact heq
    · intro heq'
      rw [Value.eq, Bool.and_eq_true, Bool.and_eq_true, beq_iff_eq, beq_iff_eq] at heq'
      obtain ⟨⟨rfl, rfl⟩, hvals⟩ := heq'
      simp only [Value.hash, Value.discriminant, valuesHash_of_eq hpairs hvals,
        length_of_valuesEq hvals]
    · rw [hcmp, helem]
    · intro _ _
      rw [hcmp, Value.eq3]
      congr 1
      rw [Bool.eq_iff_iff, beq_iff_eq, heq]
    · intro o _ _ _
      rw [hcmp, Value.order3, ← helem]
      rfl
    · rfl

/-! ## Composites -/

/-- What has to hold of the field lists of a composite type. -/
structure FieldsCohere (S : List Value → Prop) : Prop where
  total : TotalOn S (listCompare slotCmp)
  length : ∀ a b, S a → S b → a.length = b.length
  pairs : ∀ a b, S a → S b → PairsOk a b

theorem FieldsCohere.mono {S T : List Value → Prop} (h : FieldsCohere S) (hs : ∀ a, T a → S a) :
    FieldsCohere T where
  total := h.total.mono hs
  length a b ha hb := h.length a b (hs a ha) (hs b hb)
  pairs a b ha hb := h.pairs a b (hs a ha) (hs b hb)

theorem fieldsCohere_nil : FieldsCohere fun a => a = [] where
  total := by
    constructor
    · rintro _ _ rfl rfl
      rfl
    · rintro _ _ _ rfl _ rfl _ _
      exact nofun
  length := by
    rintro _ _ rfl rfl
    rfl
  pairs := by
    rintro _ _ rfl rfl p hp
    cases hp

theorem Coheres.cons {S : Value → Prop} {T U : List Value → Prop} (h : Coheres S)
    (hfields : FieldsCohere T)
    (hu : ∀ a, U a → ∃ p : Value × List Value, (OrNull S p.1 ∧ T p.2) ∧ p.1 :: p.2 = a) :
    FieldsCohere U where
  total := by
    have hhead : TotalOn (fun p : Value × List Value => OrNull S p.1 ∧ T p.2)
        fun p q => slotCmp p.1 q.1 := (h.total_slot.comap Prod.fst).mono fun _ hp => hp.1
    have htail : TotalOn (fun p : Value × List Value => OrNull S p.1 ∧ T p.2)
        fun p q => listCompare slotCmp p.2 q.2 := (hfields.total.comap Prod.snd).mono fun _ hp => hp.2
    apply (hhead.andThen htail).image hu
    intro p q _ _
    rfl
  length := by
    intro a b ha hb
    obtain ⟨p, hp, rfl⟩ := hu a ha
    obtain ⟨q, hq, rfl⟩ := hu b hb
    rw [List.length_cons, List.length_cons, hfields.length _ _ hp.2 hq.2]
  pairs := by
    intro a b ha hb
    obtain ⟨p, hp, rfl⟩ := hu a ha
    obtain ⟨q, hq, rfl⟩ := hu b hb
    exact pairsOk_cons.mpr ⟨h.pair_orNull hp.1 hq.1, hfields.pairs _ _ hp.2 hq.2⟩

theorem FieldsCohere.composite {S : List Value → Prop} (h : FieldsCohere S)
    (ht : ∀ v, T v → ∃ fields, S fields ∧ .composite fields = v) : Coheres T := by
  have hvalueCmp : ∀ a b, valueCmp (.composite a) (.composite b) = listCompare slotCmp a b := by
    intro a b
    rw [listCompare_slotCmp]
    rfl
  constructor
  · intro v hv
    obtain ⟨fields, -, rfl⟩ := ht v hv
    exact nofun
  · exact h.total.image ht fun a b _ _ => hvalueCmp a b
  · intro v w hv hw
    obtain ⟨a, ha, rfl⟩ := ht v hv
    obtain ⟨b, hb, rfl⟩ := ht w hw
    have hpairs := h.pairs a b ha hb
    have hlen := h.length a b ha hb
    have hcmp : slotCmp (.composite a) (.composite b) = listCompare slotCmp a b := hvalueCmp a b
    constructor
    · rw [hcmp, Value.eq]
      exact valuesEq_iff hpairs
    · intro heq
      rw [Value.eq] at heq
      simp only [Value.hash, Value.discriminant, valuesHash_of_eq hpairs heq]
    · rw [hcmp, elemTotalCmp, elemsTotalCmp_eq hpairs, listCompare_slotCmp]
    · intro hfa hfb
      rw [hcmp]
      exact fieldsEq3_eq hpairs hfa hfb hlen
    · intro o ho hfa hfb
      rw [hcmp]
      exact compositeOrder3_eq hpairs hfa hfb hlen ho
    · rw [Value.eq, Value.notDistinctFrom, fieldsNotDistinct_eq hpairs hlen, hlen, beq_self_eq_true,
        Bool.true_and]

/-! ## Every type -/

mutual

theorem coheres_type : ∀ t : ColType, Coheres (OfType t)
  | .scalar s => by
    apply (coheres_scalar s).mono
    intro v hv
    rw [OfType] at hv
    exact hv
  | .composite types => by
    apply (fieldsCohere_types types).composite
    intro v hv
    cases v <;> simp only [OfType] at hv
    exact ⟨_, hv, rfl⟩
  | .array elem => by
    apply (coheres_type elem).array
    intro v hv
    cases v <;> simp only [OfType] at hv
    exact ⟨⟨_, _, _⟩, hv, rfl⟩
  | .range elem => by
    cases elem with
    | scalar s =>
      by_cases hs : ∃ desc ∈ RANGES, desc.element = s
      · obtain ⟨desc, hdesc, rfl⟩ := hs
        apply coheres_range hdesc
        intro v hv
        cases v <;> simp only [OfType] at hv
        exact ⟨_, hv.2, rfl⟩
      · apply (coheres_scalar s).mono
        intro v hv
        cases v <;> simp only [OfType] at hv
        exact absurd hv.1 hs
    | composite types => exact (coheres_scalar .int32).mono fun v hv => by cases v <;> simp [OfType] at hv
    | array elem => exact (coheres_scalar .int32).mono fun v hv => by cases v <;> simp [OfType] at hv
    | range elem => exact (coheres_scalar .int32).mono fun v hv => by cases v <;> simp [OfType] at hv

theorem fieldsCohere_types : ∀ types : List ColType, FieldsCohere (OfFields types)
  | [] => by
    apply fieldsCohere_nil.mono
    intro a ha
    cases a with
    | nil => rfl
    | cons v fields => simp [OfFields] at ha
  | t :: types => by
    apply (coheres_type t).cons (fieldsCohere_types types)
    intro a ha
    cases a with
    | nil => simp [OfFields] at ha
    | cons v fields =>
      rw [OfFields] at ha
      exact ⟨(v, fields), ha, rfl⟩

end

/-- The values of a comparable type, NULL among them, in one partition: equality is an equivalence, equal
    values have one hash, `value_cmp` is a total order of the classes, the three-valued operators say what
    it says of values with no NULL in them, `not_distinct_from` is equality, and the orders of arrays and
    of composites are its restrictions. -/
structure Partition (S : Value → Prop) : Prop where
  refl : ∀ a, S a → a.eq a = true
  symm : ∀ a b, S a → S b → a.eq b = true → b.eq a = true
  trans : ∀ a b c, S a → S b → S c → a.eq b = true → b.eq c = true → a.eq c = true
  hash : ∀ a b, S a → S b → a.eq b = true → a.hash = b.hash
  total : TotalOn S valueCmp
  cmp_eq : ∀ a b, S a → S b → (valueCmp a b = .eq ↔ a.eq b = true)
  eq3 : ∀ a b, S a → S b → full a = true → full b = true → (a.eq3 b = .true ↔ valueCmp a b = .eq)
  lt3 : ∀ a b, S a → S b → full a = true → full b = true → (a.lt3 b = .true ↔ valueCmp a b = .lt)
  gt3 : ∀ a b, S a → S b → full a = true → full b = true → (a.gt3 b = .true ↔ valueCmp a b = .gt)
  notDistinct : ∀ a b, S a → S b → (a.notDistinctFrom b = true ↔ a.eq b = true)
  arrays : ∀ dims lbounds es dims' lbounds' es', S (.array dims lbounds es) →
    S (.array dims' lbounds' es') → arrayTotalCmp dims lbounds es dims' lbounds' es' =
      valueCmp (.array dims lbounds es) (.array dims' lbounds' es')
  composites : ∀ a b, S (.composite a) → S (.composite b) →
    compositeTotalCmp a b = valueCmp (.composite a) (.composite b)

theorem bool3_eq_true {b : Bool} : bool3 b = .true ↔ b = true := by cases b <;> decide

/-- On values with NULL in a place of its own, `value_cmp` calls equal what `key_cmp` does. -/
theorem valueCmp_eq_iff_slotCmp {a b : Value} : valueCmp a b = .eq ↔ slotCmp a b = .eq := by
  by_cases ha : a = .null
  · by_cases hb : b = .null
    · rw [ha, hb]
      exact ⟨fun _ => rfl, fun _ => rfl⟩
    · rw [ha, show slotCmp .null b = .gt from nullCmp_null_left hb _]
      cases b <;> first | exact absurd rfl hb | exact ⟨nofun, nofun⟩
  · by_cases hb : b = .null
    · rw [hb, show slotCmp a .null = .lt from nullCmp_null_right ha _]
      cases a <;> first | exact absurd rfl ha | exact ⟨nofun, nofun⟩
    · rw [slotCmp_of_ne ha hb]

theorem full_ne_null {v : Value} (h : full v = true) : v ≠ .null := by
  rintro rfl
  cases h

/-- `==`, hashing, `value_cmp`, the three-valued operators and `not_distinct_from` make one partition of
    the values of every comparable type. -/
theorem values_cohere (t : ColType) : Partition (OrNull (OfType t)) := by
  have h := coheres_type t
  have hpair : ∀ a b, OrNull (OfType t) a → OrNull (OfType t) b → PairOk a b :=
    fun a b ha hb => h.pair_orNull ha hb
  have heq : ∀ a b, OrNull (OfType t) a → OrNull (OfType t) b →
      (valueCmp a b = .eq ↔ a.eq b = true) := by
    intro a b ha hb
    rw [valueCmp_eq_iff_slotCmp, (hpair a b ha hb).eq_iff]
  have htotal : TotalOn (OrNull (OfType t)) valueCmp := by
    apply totalOn_orNull h.total 0 (by decide) rfl
    · intro y hy
      cases y <;> first | exact absurd rfl hy | rfl
    · intro x hx
      cases x <;> first | exact absurd rfl hx | rfl
  have hslot : ∀ {a b}, full a = true → full b = true → slotCmp a b = valueCmp a b :=
    fun ha hb => slotCmp_of_ne (full_ne_null ha) (full_ne_null hb)
  constructor
  · intro a ha
    exact (heq a a ha ha).mp (htotal.refl ha)
  · intro a b ha hb hab
    exact (heq b a hb ha).mp (htotal.eq_symm ha hb ((heq a b ha hb).mpr hab))
  · intro a b c ha hb hc hab hbc
    exact (heq a c ha hc).mp (htotal.eq_trans ha hb hc ((heq a b ha hb).mpr hab)
      ((heq b c hb hc).mpr hbc))
  · intro a b ha hb
    exact (hpair a b ha hb).hash
  · exact htotal
  · exact heq
  · intro a b ha hb hfa hfb
    rw [(hpair a b ha hb).eq3 hfa hfb, hslot hfa hfb, bool3_eq_true, beq_iff_eq]
  · intro a b ha hb hfa hfb
    rw [Value.lt3, (hpair a b ha hb).order3 _ (by decide) hfa hfb, hslot hfa hfb, bool3_eq_true,
      beq_iff_eq]
  · intro a b ha hb hfa hfb
    rw [Value.gt3, (hpair a b ha hb).order3 _ (by decide) hfa hfb, hslot hfa hfb, bool3_eq_true,
      beq_iff_eq]
  · intro a b ha hb
    rw [(hpair a b ha hb).notDistinct]
  · intro _ _ _ _ _ _ ha hb
    exact (hpair _ _ ha hb).elem
  · intro _ _ ha hb
    exact (hpair _ _ ha hb).elem

end Jed.Compare
