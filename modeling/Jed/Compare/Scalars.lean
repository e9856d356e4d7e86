import Jed.Compare.Values
import Jed.Key.Scalars
import Jed.Lib.TotalOn

/-!
# Scalars and documents

For what a value holds — bytes, decimals, floats, `jsonb` documents — its order is total, and it is
equality, and so equality of what is hashed, that the order calls equal.
-/

namespace Jed

open KeyCodes Ranges Key

theorem lexCompare_eq_listCompare (s t : Bytes) : lexCompare s t = listCompare compare s t := by
  induction s generalizing t with
  | nil => cases t <;> rfl
  | cons x s ih =>
    cases t with
    | nil => rfl
    | cons y t => rw [lexCompare, listCompare, ih]

theorem totalOn_lexCompare {S : Bytes → Prop} : TotalOn S (lexCompare : Bytes → Bytes → Ordering) := by
  have hbyte : TotalOn (fun _ : UInt8 => True) compare := totalOn_compare id
  apply TotalOn.congr (hbyte.list.mono fun _ _ _ _ => trivial)
  intro a b _ _
  exact lexCompare_eq_listCompare a b

namespace Decimal

theorem canonicalFrom_value (scale coeff : ℕ) :
    ((canonicalFrom scale coeff).1 : ℚ) / 10 ^ (canonicalFrom scale coeff).2 = coeff / 10 ^ scale := by
  induction scale generalizing coeff with
  | zero => rfl
  | succ scale ih =>
    rw [canonicalFrom]
    split
    · rename_i h
      obtain ⟨k, rfl⟩ := Nat.dvd_of_mod_eq_zero h
      rw [ih, Nat.mul_div_cancel_left _ (by decide), pow_succ]
      push_cast
      field_simp
    · rfl

/-- What is left has no fractional zero at its end. -/
theorem canonicalFrom_reduced (scale coeff : ℕ) :
    (canonicalFrom scale coeff).2 ≠ 0 → (canonicalFrom scale coeff).1 % 10 ≠ 0 := by
  induction scale generalizing coeff with
  | zero => exact fun h => absurd rfl h
  | succ scale ih =>
    rw [canonicalFrom]
    split
    · exact ih _
    · rename_i h
      exact fun _ => h

theorem eq_of_reduced {c s c' s' : ℕ} (h : s ≠ 0 → c % 10 ≠ 0) (h' : s' ≠ 0 → c' % 10 ≠ 0)
    (heq : (c : ℚ) / 10 ^ s = c' / 10 ^ s') : c = c' ∧ s = s' := by
  have hmul : c * 10 ^ s' = c' * 10 ^ s := by
    rw [div_eq_div_iff (by positivity) (by positivity)] at heq
    exact_mod_cast heq
  have hle : ∀ {c s c' s' : ℕ}, (s' ≠ 0 → c' % 10 ≠ 0) → c * 10 ^ s' = c' * 10 ^ s → s' ≤ s := by
    intro c s c' s' h' hmul
    by_contra hlt
    obtain ⟨k, rfl⟩ := Nat.exists_eq_add_of_lt (not_le.mp hlt)
    have hc' : c' = c * 10 ^ k * 10 := by
      have hpos : 0 < 10 ^ s := by positivity
      apply Nat.eq_of_mul_eq_mul_right hpos
      rw [← hmul]
      ring
    exact h' (by omega) (by rw [hc', Nat.mul_mod_left])
  have hs : s = s' := le_antisymm (hle h hmul.symm) (hle h' hmul)
  subst hs
  exact ⟨Nat.eq_of_mul_eq_mul_right (by positivity) hmul, rfl⟩

theorem toRat_canonical (d : Decimal) : d.toRat =
    (if d.canonical.1 then -1 else 1) * ((d.canonical.2.1 : ℚ) / 10 ^ d.canonical.2.2) := by
  by_cases h : d.coeff = 0
  · rw [canonical, if_pos h, toRat, h]
    simp
  · rw [canonical, if_neg h, toRat, canonicalFrom_value]

theorem canonical_reduced (d : Decimal) : d.canonical.2.2 ≠ 0 → d.canonical.2.1 % 10 ≠ 0 := by
  unfold canonical
  split
  · exact fun h => absurd rfl h
  · exact canonicalFrom_reduced _ _

theorem canonical_sign (d : Decimal) : d.canonical.1 = true → d.toRat < 0 := by
  unfold canonical
  split
  · intro h
    cases h
  · intro h
    rw [toRat_eq, if_pos h]
    exact neg_lt_zero.mpr (mag_pos_of_neg h)

theorem canonical_nonneg {d : Decimal} (h : d.canonical.1 = false) : 0 ≤ d.toRat := by
  rw [toRat_canonical, h]
  simp only [Bool.false_eq_true, if_false, one_mul]
  positivity

variable {a b : Decimal}

theorem canonical_eq_iff : a.canonical = b.canonical ↔ a.toRat = b.toRat := by
  constructor
  · intro h
    rw [toRat_canonical, toRat_canonical, h]
  · intro h
    have hsign : a.canonical.1 = b.canonical.1 := by
      cases ha : a.canonical.1 <;> cases hb : b.canonical.1
      · rfl
      · exact absurd (canonical_sign b hb) (not_lt.mpr (h ▸ canonical_nonneg ha))
      · exact absurd (canonical_sign a ha) (not_lt.mpr (h ▸ canonical_nonneg hb))
      · rfl
    rw [toRat_canonical, toRat_canonical, hsign] at h
    have hne : (if b.canonical.1 then -1 else 1 : ℚ) ≠ 0 := by split <;> norm_num
    obtain ⟨hc, hs⟩ := eq_of_reduced a.canonical_reduced b.canonical_reduced (mul_left_cancel₀ hne h)
    exact Prod.ext hsign (Prod.ext hc hs)

theorem totalOn_cmpValue {S : Decimal → Prop} : TotalOn S cmpValue :=
  (totalOn_compare toRat).congr fun a b _ _ => cmpValue_eq a b

theorem eq_iff : a.eq b = true ↔ a.cmpValue b = .eq := by
  rw [eq, beq_iff_eq, canonical_eq_iff, cmpValue_eq, compare_eq_iff_eq]

theorem hash_of_eq (h : a.eq b = true) : a.hash = b.hash := by
  rw [eq, beq_iff_eq] at h
  rw [hash, hash, h]

end Decimal

namespace FloatFormat

variable {fmt : FloatFormat}

theorem totalOn_totalCmp {S : BitVec fmt.width → Prop} : TotalOn S fmt.totalCmp :=
  (totalOn_compare (keyPlace fmt)).congr fun a b _ _ => totalCmp_eq fmt a b

theorem flip_injective : Function.Injective (flip fmt) := by
  intro a b h
  have hlt : ∀ x : BitVec fmt.width, x.msb = true → (flip fmt x).toNat < 2 ^ fmt.magnitudeBits := by
    intro x hx
    have := flip_negative fmt hx
    omega
  have hge : ∀ x : BitVec fmt.width, x.msb = false → 2 ^ fmt.magnitudeBits ≤ (flip fmt x).toNat := by
    intro x hx
    rw [flip_positive fmt hx]
    exact Nat.le_add_right _ _
  apply BitVec.eq_of_toNat_eq
  rw [toNat_eq_magnitude, toNat_eq_magnitude]
  cases ha : a.msb <;> cases hb : b.msb
  · have hab := flip_positive fmt ha
    rw [h, flip_positive fmt hb] at hab
    omega
  · exact absurd (hlt b hb) (not_lt.mpr (h ▸ hge a ha))
  · exact absurd (hlt a ha) (not_lt.mpr (h ▸ hge b hb))
  · have hab := flip_negative fmt ha
    have hbb := flip_negative fmt hb
    rw [h] at hab
    omega

theorem canonBits_eq_iff {a b : BitVec fmt.width} :
    fmt.canonBits a = fmt.canonBits b ↔ fmt.totalCmp a b = .eq := by
  rw [totalCmp_eq, compare_eq_iff_eq]
  have ha := floatKey_toNat fmt a
  have hb := floatKey_toNat fmt b
  constructor
  · intro h
    rw [h] at ha
    split at ha <;> split at hb <;> omega
  · intro h
    rw [h, ← hb] at ha
    exact flip_injective (BitVec.eq_of_toNat_eq (by exact_mod_cast ha))

end FloatFormat

namespace JsonNode

mutual

theorem cmpNested_eq_iff : ∀ a b : JsonNode, cmpNested a b = .eq ↔ a.eq b = true
  | a, b => by
    cases a with
    | null => cases b <;> simp [cmpNested, JsonNode.eq, typeRank]
    | bool x => cases b <;> simp [cmpNested, JsonNode.eq, typeRank]
    | number x => cases b <;> simp [cmpNested, JsonNode.eq, typeRank, Decimal.eq_iff]
    | string x => cases b <;> simp [cmpNested, JsonNode.eq, typeRank, lexCompare_eq_iff]
    | array x =>
      cases b with
      | array y =>
        rw [cmpNested, JsonNode.eq, Ordering.then_eq_eq, compare_eq_iff_eq]
        exact itemsCmp_eq_iff x y
      | _ => simp [cmpNested, JsonNode.eq, typeRank]
    | object x =>
      cases b with
      | object y =>
        rw [cmpNested, JsonNode.eq, Ordering.then_eq_eq, compare_eq_iff_eq]
        exact membersCmp_eq_iff x y
      | _ => simp [cmpNested, JsonNode.eq, typeRank]

theorem itemsCmp_eq_iff : ∀ a b : List JsonNode,
    a.length = b.length ∧ itemsCmp a b = .eq ↔ jsonItemsEq a b = true
  | [], b => by cases b <;> simp [itemsCmp, jsonItemsEq]
  | x :: a, [] => by simp [jsonItemsEq]
  | x :: a, y :: b => by
    rw [itemsCmp, jsonItemsEq, Ordering.then_eq_eq, Bool.and_eq_true, ← itemsCmp_eq_iff a b,
      cmpNested_eq_iff x y, List.length_cons, List.length_cons, Nat.succ_inj]
    tauto

theorem membersCmp_eq_iff : ∀ a b : List (Bytes × JsonNode),
    a.length = b.length ∧ membersCmp a b = .eq ↔ jsonMembersEq a b = true
  | [], b => by cases b <;> simp [membersCmp, jsonMembersEq]
  | x :: a, [] => by simp [jsonMembersEq]
  | (ka, va) :: a, (kb, vb) :: b => by
    rw [membersCmp, jsonMembersEq, Ordering.then_eq_eq, Ordering.then_eq_eq, Bool.and_eq_true,
      Bool.and_eq_true, ← membersCmp_eq_iff a b, cmpNested_eq_iff va vb, lexCompare_eq_iff,
      beq_iff_eq, List.length_cons, List.length_cons, Nat.succ_inj]
    tauto

end

mutual

theorem hash_of_eq : ∀ a b : JsonNode, a.eq b = true → a.hash = b.hash
  | a, b => by
    intro h
    cases a with
    | null => cases b <;> first | rfl | cases h
    | bool x => cases b <;> first | cases h | (rw [eq, beq_iff_eq] at h; rw [h])
    | number x =>
      cases b <;> first | cases h | (rw [eq] at h; rw [hash, hash, Decimal.hash_of_eq h])
    | string x => cases b <;> first | cases h | (rw [eq, beq_iff_eq] at h; rw [h])
    | array x =>
      cases b with
      | array y =>
        rw [eq] at h
        rw [hash, hash, itemsHash_of_eq x y h, ((itemsCmp_eq_iff x y).mpr h).1]
      | _ => cases h
    | object x =>
      cases b with
      | object y =>
        rw [eq] at h
        rw [hash, hash, membersHash_of_eq x y h, ((membersCmp_eq_iff x y).mpr h).1]
      | _ => cases h

theorem itemsHash_of_eq : ∀ a b : List JsonNode,
    jsonItemsEq a b = true → jsonItemsHash a = jsonItemsHash b
  | [], [], _ => rfl
  | x :: a, y :: b, h => by
    rw [jsonItemsEq, Bool.and_eq_true] at h
    rw [jsonItemsHash, jsonItemsHash, hash_of_eq x y h.1, itemsHash_of_eq a b h.2]

theorem membersHash_of_eq : ∀ a b : List (Bytes × JsonNode),
    jsonMembersEq a b = true → jsonMembersHash a = jsonMembersHash b
  | [], [], _ => rfl
  | (ka, va) :: a, (kb, vb) :: b, h => by
    rw [jsonMembersEq, Bool.and_eq_true, Bool.and_eq_true, beq_iff_eq] at h
    rw [jsonMembersHash, jsonMembersHash, h.1.1, hash_of_eq va vb h.1.2, membersHash_of_eq a b h.2]

end

theorem itemsCmp_eq {a b : List JsonNode} (h : a.length = b.length) :
    itemsCmp a b = listCompare cmpNested a b := by
  induction a generalizing b with
  | nil =>
    cases b with
    | nil => rfl
    | cons y b => cases h
  | cons x a ih =>
    cases b with
    | nil => cases h
    | cons y b => rw [itemsCmp, listCompare, ih (Nat.succ.inj h)]

/-- The order of two members. -/
def memberCmp (a b : Bytes × JsonNode) : Ordering := (lexCompare a.1 b.1).then (cmpNested a.2 b.2)

theorem membersCmp_eq {a b : List (Bytes × JsonNode)} (h : a.length = b.length) :
    membersCmp a b = listCompare memberCmp a b := by
  induction a generalizing b with
  | nil =>
    cases b with
    | nil => rfl
    | cons y b => cases h
  | cons x a ih =>
    cases b with
    | nil => cases h
    | cons y b => rw [membersCmp, listCompare, ih (Nat.succ.inj h), memberCmp]

theorem then_congr {o p q : Ordering} (h : o = .eq → p = q) : o.then p = o.then q := by
  cases o with
  | lt => rfl
  | eq => exact h rfl
  | gt => rfl

variable {a b : JsonNode}

theorem cmpNested_of_ne (h : a.typeRank ≠ b.typeRank) :
    cmpNested a b = compare a.typeRank b.typeRank := by
  cases a <;> cases b <;> first | rfl | exact absurd rfl h

/-- Below a size, documents are ordered: their parts are smaller. -/
theorem totalOn_cmpNested_below (k : ℕ) : TotalOn (fun n : JsonNode => sizeOf n < k) cmpNested := by
  induction k with
  | zero => exact ⟨fun h => absurd h (Nat.not_lt_zero _), fun h => absurd h (Nat.not_lt_zero _)⟩
  | succ k ih =>
    have hpair : TotalOn (fun m : Bytes × JsonNode => sizeOf m.2 < k) memberCmp :=
      ((totalOn_lexCompare (S := fun _ => True)).comap Prod.fst).mono (fun _ _ => trivial)
        |>.andThen (ih.comap Prod.snd)
    apply TotalOn.ranked typeRank
    · intro r
      rcases r with _ | _ | _ | _ | _ | _ | r
      · apply TotalOn.image (totalOn_compare (S := fun _ => True) fun _ : Unit => 0) (f := fun _ => .null)
        · rintro (_ | _) ⟨-, h⟩ <;> first | exact ⟨(), trivial, rfl⟩ | cases h
        · intro _ _ _ _
          rfl
      · apply TotalOn.image (totalOn_lexCompare (S := fun _ => True)) (f := .string)
        · rintro (_ | _ | _ | s) ⟨-, h⟩ <;> first | exact ⟨s, trivial, rfl⟩ | cases h
        · intro _ _ _ _
          rfl
      · apply TotalOn.image (Decimal.totalOn_cmpValue (S := fun _ => True)) (f := .number)
        · rintro (_ | _ | d) ⟨-, h⟩ <;> first | exact ⟨d, trivial, rfl⟩ | cases h
        · intro _ _ _ _
          rfl
      · apply TotalOn.image (totalOn_compare (S := fun _ => True) (id : Bool → Bool)) (f := .bool)
        · rintro (_ | b) ⟨-, h⟩ <;> first | exact ⟨b, trivial, rfl⟩ | cases h
        · intro _ _ _ _
          rfl
      · apply TotalOn.image ((totalOn_compare List.length).andThen ih.list) (f := .array)
        · rintro (_ | _ | _ | _ | items) ⟨hk, h⟩ <;> cases h
          refine ⟨items, fun x hx => ?_, rfl⟩
          have := List.sizeOf_lt_of_mem hx
          simp only [JsonNode.array.sizeOf_spec] at hk
          omega
        · intro a b _ _
          exact then_congr fun h => itemsCmp_eq (compare_eq_iff_eq.mp h)
      · apply TotalOn.image ((totalOn_compare List.length).andThen hpair.list) (f := .object)
        · rintro (_ | _ | _ | _ | _ | members) ⟨hk, h⟩ <;> cases h
          refine ⟨members, fun m hm => ?_, rfl⟩
          have := List.sizeOf_lt_of_mem hm
          rw [Prod.mk.sizeOf_spec] at this
          simp only [JsonNode.object.sizeOf_spec] at hk
          omega
        · intro a b _ _
          exact then_congr fun h => membersCmp_eq (compare_eq_iff_eq.mp h)
      · have hnone : ∀ a : JsonNode, a.typeRank ≠ r + 6 := by
          intro a h
          cases a <;> cases h
        exact ⟨fun ha => absurd ha.2 (hnone _), fun ha => absurd ha.2 (hnone _)⟩
    · intro a b _ _ h
      exact cmpNested_of_ne h

theorem totalOn_cmpNested : TotalOn (fun _ => True) cmpNested :=
  TotalOn.of_bounded sizeOf totalOn_cmpNested_below

/-- The kinds of whole documents, in order. -/
def rootRank : JsonNode → ℕ
  | .array [] => 0
  | .array (_ :: _) => 2
  | .object _ => 3
  | _ => 1

theorem cmp_of_rootRank_eq (h : a.rootRank = b.rootRank) :
    cmp a b = cmpNested a b := by
  rcases a with _ | _ | _ | _ | (_ | _) | _ <;> rcases b with _ | _ | _ | _ | (_ | _) | _ <;>
    first | rfl | cases h

theorem cmp_of_rootRank_ne (h : a.rootRank ≠ b.rootRank) :
    cmp a b = compare a.rootRank b.rootRank := by
  rcases a with _ | _ | _ | _ | (_ | _) | _ <;> rcases b with _ | _ | _ | _ | (_ | _) | _ <;>
    first | rfl | exact hlt _ _ | exact hgt _ _ | exact absurd rfl h

theorem totalOn_cmp : TotalOn (fun _ => True) cmp := by
  apply TotalOn.ranked rootRank
  · intro r
    apply TotalOn.congr (totalOn_cmpNested.mono fun _ _ => trivial)
    rintro a b ⟨-, ha⟩ ⟨-, hb⟩
    exact cmp_of_rootRank_eq (ha.trans hb.symm)
  · intro a b _ _ h
    exact cmp_of_rootRank_ne h

theorem rootRank_eq (h : a.eq b = true) : a.rootRank = b.rootRank := by
  rcases a with _ | _ | _ | _ | (_ | _) | _ <;> rcases b with _ | _ | _ | _ | (_ | _) | _ <;>
    first | rfl | cases h

theorem cmp_eq_iff (a b : JsonNode) : cmp a b = .eq ↔ a.eq b = true := by
  by_cases h : a.rootRank = b.rootRank
  · rw [cmp_of_rootRank_eq h, cmpNested_eq_iff]
  · rw [cmp_of_rootRank_ne h, compare_eq_iff_eq]
    exact ⟨fun heq => absurd heq h, fun heq => absurd (rootRank_eq heq) h⟩

end JsonNode

end Jed
