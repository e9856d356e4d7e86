import Jed.Compare.Scalars
import Jed.Key.Elements
import Jed.Implies.Prover

/-!
# Comparisons with constants

What a comparison with a constant of the prover says of the other operand, and which comparisons with
another constant follow.
-/

namespace Jed.Implies

open Access (CmpOp)
open Key KeyCodes

/-- `ProverConst` as the value it came from. -/
def ProverConst.value : ProverConst → Value
  | .int n => .int n
  | .text s => .text s
  | .decimal d => .decimal d
  | .date d => .date d
  | .timestamp m => .timestamp m
  | .timestamptz m => .timestamptz m
  | .bool b => .bool b
  | .uuid b => .uuid b

attribute [grind =] ProverConst.value

/-- The order of a value and a constant of its family. -/
def ProverConst.against (x : Value) : ProverConst → Option Ordering
  | .int n =>
    match x with
    | .int m => some (compare m n)
    | .decimal d => some (d.cmpValue (Decimal.fromI64 n))
    | _ => none
  | .decimal d =>
    match x with
    | .int m => some ((Decimal.fromI64 m).cmpValue d)
    | .decimal e => some (e.cmpValue d)
    | _ => none
  | .text s =>
    match x with
    | .text t => some (lexCompare t s)
    | _ => none
  | .date d =>
    match x with
    | .date e => some (compare e d)
    | _ => none
  | .timestamp m =>
    match x with
    | .timestamp n => some (compare n m)
    | _ => none
  | .timestamptz m =>
    match x with
    | .timestamptz n => some (compare n m)
    | _ => none
  | .bool b =>
    match x with
    | .bool c => some (compare c b)
    | _ => none
  | .uuid b =>
    match x with
    | .uuid c => some (lexCompare c b)
    | _ => none

attribute [grind =] ProverConst.against

theorem fromValue_eq_some {v : Value} {c : ProverConst} (h : ProverConst.fromValue v = some c) :
    v = c.value := by
  cases v <;> cases h <;> rfl

/-- A comparison whose operands have the given order, if they have one. -/
def ofOrder (op : CmpOp) : Option Ordering → ThreeValued
  | some ord => bool3 (holdsOrder op ord)
  | none => .unknown

theorem lexCompare_swap {β : Type} [LinearOrder β] (s t : List β) :
    lexCompare s t = (lexCompare t s).swap := by
  rcases lt_trichotomy s t with h | h | h
  · rw [lexCompare_lt_iff.mpr h, lexCompare_gt_iff.mpr h]
    rfl
  · rw [lexCompare_eq_iff.mpr h, lexCompare_eq_iff.mpr h.symm]
    rfl
  · rw [lexCompare_gt_iff.mpr h, lexCompare_lt_iff.mpr h]
    rfl

theorem beq_eq_lexCompare (s t : Bytes) : (s == t) = (lexCompare s t == .eq) := by
  rw [Bool.eq_iff_iff, beq_iff_eq, beq_iff_eq, lexCompare_eq_iff]

theorem swap_beq (o p : Ordering) : (o.swap == p) = (o == p.swap) := by
  cases o <;> cases p <;> rfl

theorem lexCompare_beq_swap {β : Type} [LinearOrder β] (s t : List β) (o : Ordering) :
    (lexCompare s t == o) = (lexCompare t s == o.swap) := by
  rw [lexCompare_swap, swap_beq]

theorem beq_eq_compare {α : Type} [LinearOrder α] [BEq α] [LawfulBEq α] (a b : α) :
    (a == b) = (compare a b == .eq) := by
  rw [Bool.eq_iff_iff, beq_iff_eq, beq_iff_eq, compare_eq_iff_eq]

theorem compare_beq_swap {α : Type} [LinearOrder α] (a b : α) (o : Ordering) :
    (compare a b == o) = (compare b a == o.swap) := by
  rw [← swap_beq, show (compare b a).swap = compare a b from Std.OrientedCmp.eq_swap.symm]

theorem toRat_fromI64 (n : ℤ) : (Decimal.fromI64 n).toRat = n := by
  rcases lt_or_ge n 0 with h | h
  · simp [Decimal.fromI64, Decimal.toRat, h, Nat.cast_natAbs, abs_of_neg h]
  · simp [Decimal.fromI64, Decimal.toRat, not_lt.mpr h, Nat.cast_natAbs, abs_of_nonneg h]

theorem compare_cast (m n : ℤ) : compare m n = compare (m : ℚ) (n : ℚ) := by
  rcases lt_trichotomy m n with h | h | h
  · rw [compare_lt_iff_lt.mpr h, compare_lt_iff_lt.mpr (by exact_mod_cast h)]
  · rw [compare_eq_iff_eq.mpr h, compare_eq_iff_eq.mpr (by exact_mod_cast h)]
  · rw [compare_gt_iff_gt.mpr h, compare_gt_iff_gt.mpr (by exact_mod_cast h)]

theorem eq3_const (x : Value) (c : ProverConst) :
    x.eq3 c.value = ofOrder .eq (c.against x) := by
  cases c <;> cases x <;>
    simp [ProverConst.value, ProverConst.against, ofOrder, holdsOrder, Value.eq3, Value.flatEq3,
      numericCmp, beq_eq_lexCompare, beq_eq_compare (α := ℤ), beq_eq_compare (α := Bool)]

theorem order3_const (o : Ordering) (x : Value) (c : ProverConst) :
    Value.order3 o x c.value = match c.against x with
      | some ord => bool3 (ord == o)
      | none => .unknown := by
  cases c <;> cases x <;>
    simp [ProverConst.value, ProverConst.against, Value.order3, Value.flatOrder3, numericCmp]

theorem const_eq3 (x : Value) (c : ProverConst) :
    c.value.eq3 x = ofOrder .eq (c.against x) := by
  cases c <;> cases x <;>
    simp [ProverConst.value, ProverConst.against, ofOrder, holdsOrder, Value.eq3, Value.flatEq3,
      numericCmp, beq_eq_lexCompare, beq_eq_compare (α := ℤ), beq_eq_compare (α := Bool),
      Decimal.cmpValue_eq] <;>
    first
      | rw [compare_beq_swap]; rfl
      | rw [lexCompare_beq_swap]; rfl

theorem const_order3 (o : Ordering) (x : Value) (c : ProverConst) :
    Value.order3 o c.value x = match c.against x with
      | some ord => bool3 (ord == o.swap)
      | none => .unknown := by
  cases c <;> cases x <;>
    simp [ProverConst.value, ProverConst.against, Value.order3, Value.flatOrder3, numericCmp,
      Decimal.cmpValue_eq] <;>
    first
      | rw [compare_beq_swap]
      | rw [lexCompare_beq_swap]

theorem rowCmp3_const (op : CmpOp) (x : Value) (c : ProverConst) :
    rowCmp3 op x c.value = ofOrder op (c.against x) := by
  cases op <;> simp only [rowCmp3, Value.lt3, Value.gt3, eq3_const, order3_const] <;>
    cases c.against x with
    | none => rfl
    | some ord => cases ord <;> rfl

theorem const_rowCmp3 (op : CmpOp) (x : Value) (c : ProverConst) :
    rowCmp3 op c.value x = ofOrder (flipCmp op) (c.against x) := by
  cases op <;> simp only [rowCmp3, Value.lt3, Value.gt3, const_eq3, const_order3] <;>
    cases c.against x with
    | none => rfl
    | some ord => cases ord <;> rfl

/-- How three elements of a linear order can lie: the first to the second, the second to the third, and
    the first to the third. -/
def Consistent (o12 o23 o13 : Ordering) : Prop :=
  match o23 with
  | .eq => o13 = o12
  | .lt => o12 ≠ .gt → o13 = .lt
  | .gt => o12 ≠ .lt → o13 = .gt

theorem consistent_compare {α : Type} [LinearOrder α] (a b c : α) :
    Consistent (compare a b) (compare b c) (compare a c) := by
  rcases lt_trichotomy b c with h | h | h
  · rw [compare_lt_iff_lt.mpr h]
    exact fun hab => compare_lt_iff_lt.mpr ((compare_le_iff_le.mp hab).trans_lt h)
  · rw [compare_eq_iff_eq.mpr h, h]
    rfl
  · rw [compare_gt_iff_gt.mpr h]
    exact fun hab => compare_gt_iff_gt.mpr (h.trans_le (compare_ge_iff_ge.mp hab))

theorem consistent_lexCompare {β : Type} [LinearOrder β] (a b c : List β) :
    Consistent (lexCompare a b) (lexCompare b c) (lexCompare a c) := by
  rcases lt_trichotomy b c with h | h | h
  · rw [lexCompare_lt_iff.mpr h]
    intro hab
    exact lexCompare_lt_iff.mpr ((not_lt.mp fun hba => hab (lexCompare_gt_iff.mpr hba)).trans_lt h)
  · rw [lexCompare_eq_iff.mpr h, h]
    rfl
  · rw [lexCompare_gt_iff.mpr h]
    intro hab
    exact lexCompare_gt_iff.mpr (h.trans_le (not_lt.mp fun hba => hab (lexCompare_lt_iff.mpr hba)))

theorem against_cmp {x : Value} {c1 c2 : ProverConst} {o1 o12 : Ordering}
    (h1 : c1.against x = some o1) (h12 : c1.cmp c2 = some o12) :
    ∃ o2, c2.against x = some o2 ∧ Consistent o1 o12 o2 := by
  cases c1 <;> cases c2 <;> cases h12 <;> cases x <;> cases h1 <;> refine ⟨_, rfl, ?_⟩ <;>
    first
      | exact consistent_compare _ _ _
      | exact consistent_lexCompare _ _ _
      | simp only [Decimal.cmpValue_eq, toRat_fromI64, compare_cast]
        exact consistent_compare _ _ _

/-- The table of the prover is right. -/
theorem comparisonImplies_holds {op1 op2 : CmpOp} {o1 o12 o2 : Ordering} (h : Consistent o1 o12 o2)
    (h1 : holdsOrder op1 o1 = true) (himp : comparisonImplies op1 op2 o12 = true) :
    holdsOrder op2 o2 = true := by
  cases o12 with
  | eq =>
    obtain rfl : o2 = o1 := h
    cases op1 <;> cases op2 <;> cases o2 <;>
      first | rfl | exact absurd h1 (by decide) | exact absurd himp (by decide)
  | lt =>
    by_cases hgt : o1 = .gt
    · subst hgt
      cases op1 <;> cases op2 <;> first | exact absurd h1 (by decide) | exact absurd himp (by decide)
    · rw [show o2 = .lt from h hgt]
      cases op1 <;> cases op2 <;> first | rfl | exact absurd himp (by decide)
  | gt =>
    by_cases hlt : o1 = .lt
    · subst hlt
      cases op1 <;> cases op2 <;> first | exact absurd h1 (by decide) | exact absurd himp (by decide)
    · rw [show o2 = .gt from h hlt]
      cases op1 <;> cases op2 <;> first | rfl | exact absurd himp (by decide)

end Jed.Implies
