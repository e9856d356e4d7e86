import Jed.Lib.Cuts
import Jed.Range.Ops

/-!
# Ranges as sets

A canonical range denotes a set of integers when its element steps, and an interval of rationals
otherwise. Its bounds are cuts of that order, which `cmp_bounds` compares.
-/

namespace Jed.Ranges

open Cuts

/-- The values of a range element type. -/
def OfElem : ScalarType → Value → Prop
  | .int16, .int n => -2 ^ 15 ≤ n ∧ n ≤ 2 ^ 15 - 1
  | .int32, .int n => i32Min ≤ n ∧ n ≤ i32Max
  | .int64, .int n => i64Min ≤ n ∧ n ≤ i64Max
  | .decimal, .decimal _ => True
  | .timestamp, .timestamp m => i64Min ≤ m ∧ m ≤ i64Max
  | .timestamptz, .timestamptz m => i64Min ≤ m ∧ m ≤ i64Max
  | .date, .date d => i32Min ≤ d ∧ d ≤ i32Max
  | _, _ => False

/-- The integer of a discrete element value. -/
def intVal : Value → ℤ
  | .int n => n
  | .date d => d
  | _ => 0

/-- The rational of a continuous element value. -/
def ratVal : Value → ℚ
  | .decimal d => d.toRat
  | .timestamp m => m
  | .timestamptz m => m
  | _ => 0

/-- A bound value that `finalize` steps: of the element type, and no date infinity. -/
def BoundOk (desc : RangeDesc) (v : Value) : Prop :=
  OfElem desc.element v ∧ isInfiniteDateBound v desc.element = false

/-- A canonical lower bound: an unbounded end is exclusive, a discrete one inclusive. -/
structure LowerOk (desc : RangeDesc) (lower : Option Value) (inc : Bool) : Prop where
  value : ∀ v ∈ lower, BoundOk desc v
  unbounded : lower = none → inc = false
  stepped : desc.discrete = true → lower ≠ none → inc = true

/-- A canonical upper bound: an unbounded or a discrete end is exclusive. -/
structure UpperOk (desc : RangeDesc) (upper : Option Value) (inc : Bool) : Prop where
  value : ∀ v ∈ upper, BoundOk desc v
  unbounded : upper = none → inc = false
  stepped : desc.discrete = true → inc = false

/-- A canonical range: the empty one, or canonical bounds with a point between them. -/
structure Canonical (desc : RangeDesc) (r : Range) : Prop where
  empty : r.empty = true → r = .emptyRange
  lower : r.empty = false → LowerOk desc r.lower r.lowerInc
  upper : r.empty = false → UpperOk desc r.upper r.upperInc
  ordered : r.empty = false → boundsCmp r.lower r.upper .gt = false
  proper : r.empty = false → boundsCmp r.lower r.upper .eq = true →
    r.lowerInc = true ∧ r.upperInc = true

/-- The points of a range. -/
def denote {ι : Type} [LinearOrder ι] (val : Value → ι) (r : Range) : Set ι :=
  {x | r.empty = false ∧ (∀ lo ∈ r.lower, if r.lowerInc then val lo ≤ x else val lo < x) ∧
    ∀ hi ∈ r.upper, if r.upperInc then x ≤ val hi else x < val hi}

/-- How a range type's bounds are read as cuts of an order. -/
structure Reads {ι : Type} [LinearOrder ι] (desc : RangeDesc) (F : Frame ι (Cut ι))
    (val : Value → ι) : Prop where
  point : F.point = Cuts.point
  cmp : ∀ a b, OfElem desc.element a → OfElem desc.element b →
    elemCmp a b = compare (val a) (val b)
  lower : ∀ v inc, LowerOk desc v inc → F.Lower (lowerCut (v.map val) inc)
  upper : ∀ v inc, UpperOk desc v inc → F.Upper (upperCut (v.map val) inc)

/-- The cut of a bound on either side. -/
def cutOf {ι : Type} (isLower : Bool) (v : Option ι) (inc : Bool) : Cut ι :=
  if isLower then lowerCut v inc else upperCut v inc

section Reads

variable {ι : Type} [LinearOrder ι] {desc : RangeDesc} {F : Frame ι (Cut ι)} {val : Value → ι}

theorem compare_around_lt {v w : ι} (h : v < w) (i j : Fin 5) :
    compare (around v i) (around w j) = .lt := compare_lt_iff_lt.mpr (around_lt.mpr (.inl h))

theorem compare_around_gt {v w : ι} (h : w < v) (i j : Fin 5) :
    compare (around v i) (around w j) = .gt := compare_gt_iff_gt.mpr (around_lt.mpr (.inl h))

theorem compare_around_self (v : ι) (i j : Fin 5) :
    compare (around v i) (around v j) = compare i j := by
  rcases lt_trichotomy i j with h | rfl | h
  · rw [compare_lt_iff_lt.mpr h, compare_lt_iff_lt.mpr (around_lt.mpr (.inr ⟨rfl, h⟩))]
  · rw [compare_eq_iff_eq.mpr rfl, compare_eq_iff_eq.mpr rfl]
  · rw [compare_gt_iff_gt.mpr h, compare_gt_iff_gt.mpr (around_lt.mpr (.inr ⟨rfl, h⟩))]

/-- The level of a bound around its value. -/
def levelNat (isLower inc : Bool) : Nat :=
  if isLower then if inc then 1 else 4 else if inc then 3 else 0

theorem levelNat_lt : ∀ isLower inc : Bool, levelNat isLower inc < 5 := by decide

def level (isLower inc : Bool) : Fin 5 := ⟨levelNat isLower inc, levelNat_lt isLower inc⟩

omit [LinearOrder ι] in
theorem cutOf_some (isLower inc : Bool) (v : ι) :
    cutOf isLower (some v) inc = around v (level isLower inc) := by
  cases isLower <;> cases inc <;> rfl

theorem compare_level : ∀ inc1 lower1 inc2 lower2 : Bool,
    (match inc1, inc2 with
      | false, false => if lower1 = lower2 then .eq else if lower1 then .gt else .lt
      | false, true => if lower1 then .gt else .lt
      | true, false => if lower2 then .lt else .gt
      | true, true => if lower1 = lower2 then .eq else if lower1 then .lt else .gt) =
      compare (level lower1 inc1) (level lower2 inc2) := by
  decide

/-- `cmp_bounds` compares cuts. -/
theorem Reads.cmpBounds (h : Reads desc F val) {v1 v2 : Option Value}
    (hv1 : ∀ v ∈ v1, OfElem desc.element v) (hv2 : ∀ v ∈ v2, OfElem desc.element v)
    (inc1 lower1 inc2 lower2 : Bool) : cmpBounds v1 inc1 lower1 v2 inc2 lower2 =
      compare (cutOf lower1 (v1.map val) inc1) (cutOf lower2 (v2.map val) inc2) := by
  have hbot : ∀ (v : ι) (isLower inc : Bool), (⊥ : Cut ι) < cutOf isLower (some v) inc := by
    intro v isLower inc
    rw [cutOf_some]
    exact bot_lt_around _ _
  have htop : ∀ (v : ι) (isLower inc : Bool), cutOf isLower (some v) inc < (⊤ : Cut ι) := by
    intro v isLower inc
    rw [cutOf_some]
    exact around_lt_top _ _
  cases v1 with
  | none =>
    cases v2 with
    | none =>
      cases lower1 <;> cases lower2
      · exact (compare_eq_iff_eq.mpr rfl).symm
      · exact (compare_gt_iff_gt.mpr bot_lt_top).symm
      · exact (compare_lt_iff_lt.mpr bot_lt_top).symm
      · exact (compare_eq_iff_eq.mpr rfl).symm
    | some y =>
      cases lower1
      · exact (compare_gt_iff_gt.mpr (htop (val y) lower2 inc2)).symm
      · exact (compare_lt_iff_lt.mpr (hbot (val y) lower2 inc2)).symm
  | some x =>
    cases v2 with
    | none =>
      cases lower2
      · exact (compare_lt_iff_lt.mpr (htop (val x) lower1 inc1)).symm
      · exact (compare_gt_iff_gt.mpr (hbot (val x) lower1 inc1)).symm
    | some y =>
      have hcmp := h.cmp x y (hv1 x rfl) (hv2 y rfl)
      simp only [Ranges.cmpBounds, Option.map_some, cutOf_some, hcmp]
      rcases lt_trichotomy (val x) (val y) with hlt | heq | hgt
      · rw [compare_lt_iff_lt.mpr hlt, compare_around_lt hlt]
        rfl
      · rw [compare_eq_iff_eq.mpr heq, heq, compare_around_self]
        exact compare_level inc1 lower1 inc2 lower2
      · rw [compare_gt_iff_gt.mpr hgt, compare_around_gt hgt]
        rfl

/-- Where a range starts and where it ends. -/
def lowCut (val : Value → ι) (r : Range) : Cut ι := lowerCut (r.lower.map val) r.lowerInc
def upCut (val : Value → ι) (r : Range) : Cut ι := upperCut (r.upper.map val) r.upperInc

/-- Bounds that cross, or meet in a value not both have. -/
def crossed (lower upper : Option Value) (lowerInc upperInc : Bool) : Bool :=
  boundsCmp lower upper .gt || boundsCmp lower upper .eq && !(lowerInc && upperInc)

theorem Reads.crossed_iff (h : Reads desc F val) {lower upper : Option Value}
    (hl : ∀ v ∈ lower, OfElem desc.element v) (hu : ∀ v ∈ upper, OfElem desc.element v)
    (lowerInc upperInc : Bool) : crossed lower upper lowerInc upperInc = true ↔
      ¬lowerCut (lower.map val) lowerInc < upperCut (upper.map val) upperInc := by
  cases lower with
  | none =>
    have hlt : (⊥ : Cut ι) < upperCut (upper.map val) upperInc := by
      cases upper with
      | none => exact bot_lt_top
      | some y => exact bot_lt_around _ _
    simpa [crossed, boundsCmp, lowerCut] using hlt.ne'
  | some x =>
    cases upper with
    | none =>
      have hlt : lowerCut (some (val x)) lowerInc < (⊤ : Cut ι) := around_lt_top _ _
      simpa [crossed, boundsCmp, upperCut] using hlt.ne
    | some y =>
      have hcmp := h.cmp x y (hl x rfl) (hu y rfl)
      simp only [crossed, boundsCmp, hcmp, Option.map_some, lowerCut, upperCut, around_lt]
      rcases lt_trichotomy (val x) (val y) with hlt | heq | hgt
      · rw [compare_lt_iff_lt.mpr hlt]
        simp [hlt]
      · rw [compare_eq_iff_eq.mpr heq]
        simp only [heq, lt_irrefl, false_or, true_and]
        cases lowerInc <;> cases upperInc <;> decide
      · rw [compare_gt_iff_gt.mpr hgt]
        simp [hgt.le, hgt.ne']

theorem denote_empty (val : Value → ι) : denote val .emptyRange = ∅ := by
  simp [denote, RangeVal.emptyRange]

theorem lowerCut_lt_point {v : Option ι} {inc : Bool} {x : ι} :
    lowerCut v inc < point x ↔ ∀ lo ∈ v, if inc then lo ≤ x else lo < x := by
  cases v with
  | none => simpa [lowerCut, point] using bot_lt_around x 2
  | some v =>
    simp only [lowerCut, point, around_lt, Option.mem_def, Option.some.injEq, forall_eq']
    cases inc
    · simp
    · rw [if_pos rfl, if_pos rfl, le_iff_lt_or_eq]
      simp

theorem point_lt_upperCut {v : Option ι} {inc : Bool} {x : ι} :
    point x < upperCut v inc ↔ ∀ hi ∈ v, if inc then x ≤ hi else x < hi := by
  cases v with
  | none => simpa [upperCut, point] using around_lt_top x 2
  | some v =>
    simp only [upperCut, point, around_lt, Option.mem_def, Option.some.injEq, forall_eq']
    cases inc
    · simp
    · rw [if_pos rfl, if_pos rfl, le_iff_lt_or_eq]
      simp

variable {r : Range}

theorem Reads.denote_eq (h : Reads desc F val) (hr : r.empty = false) :
    denote val r = F.between (lowCut val r) (upCut val r) := by
  ext x
  rw [Frame.mem_between, h.point, lowCut, upCut, lowerCut_lt_point, point_lt_upperCut]
  simp [denote, hr]

theorem Canonical.lower_elem (hc : Canonical desc r) (hr : r.empty = false) :
    ∀ v ∈ r.lower, OfElem desc.element v := fun v hv => ((hc.lower hr).value v hv).1

theorem Canonical.upper_elem (hc : Canonical desc r) (hr : r.empty = false) :
    ∀ v ∈ r.upper, OfElem desc.element v := fun v hv => ((hc.upper hr).value v hv).1

theorem Reads.lowCut_lt_upCut (h : Reads desc F val) (hc : Canonical desc r)
    (hr : r.empty = false) : lowCut val r < upCut val r := by
  refine not_not.mp fun hlt => ?_
  have hcross := (h.crossed_iff (hc.lower_elem hr) (hc.upper_elem hr) _ _).mpr hlt
  rw [crossed, hc.ordered hr, Bool.false_or, Bool.and_eq_true] at hcross
  obtain ⟨hl, hu⟩ := hc.proper hr hcross.1
  simp [hl, hu] at hcross

/-- Bounds put together are canonical, and denote what lies between them. -/
theorem Reads.canonical_of_lt (h : Reads desc F val) (hr : r.empty = false)
    (hl : LowerOk desc r.lower r.lowerInc) (hu : UpperOk desc r.upper r.upperInc)
    (hlt : lowCut val r < upCut val r) : Canonical desc r := by
  have hcross : crossed r.lower r.upper r.lowerInc r.upperInc = false := by
    rw [Bool.eq_false_iff]
    intro hcross
    exact (h.crossed_iff (fun v hv => (hl.value v hv).1) (fun v hv => (hu.value v hv).1) _ _).mp
      hcross hlt
  rw [crossed, Bool.or_eq_false_iff, Bool.and_eq_false_iff] at hcross
  refine ⟨fun he => absurd he (by simp [hr]), fun _ => hl, fun _ => hu, fun _ => hcross.1,
    fun _ heq => ?_⟩
  simpa using hcross.2.resolve_left (by simp [heq])

theorem canonical_empty (desc : RangeDesc) : Canonical desc .emptyRange := by
  refine ⟨fun _ => rfl, ?_, ?_, ?_, ?_⟩ <;> exact fun h => absurd h (by decide)

/-- `make_range` of canonical bounds. -/
theorem Reads.makeRange (h : Reads desc F val) {lower upper : Option Value} {lowerInc upperInc : Bool}
    (hl : LowerOk desc lower lowerInc) (hu : UpperOk desc upper upperInc) :
    Canonical desc (makeRange lower upper lowerInc upperInc) ∧
      denote val (makeRange lower upper lowerInc upperInc) =
        F.between (lowerCut (lower.map val) lowerInc) (upperCut (upper.map val) upperInc) := by
  have hlinc : (if lower.isNone then false else lowerInc) = lowerInc := by
    cases lower with
    | none => exact (hl.unbounded rfl).symm
    | some => rfl
  have huinc : (if upper.isNone then false else upperInc) = upperInc := by
    cases upper with
    | none => exact (hu.unbounded rfl).symm
    | some => rfl
  have hcross := h.crossed_iff (fun v hv => (hl.value v hv).1) (fun v hv => (hu.value v hv).1)
    lowerInc upperInc
  have hdef : Ranges.makeRange lower upper lowerInc upperInc =
      if crossed lower upper lowerInc upperInc then .emptyRange
      else ⟨false, lower, upper, lowerInc, upperInc⟩ := by
    unfold Ranges.makeRange
    simp only [hlinc, huinc]
    rfl
  rw [hdef]
  by_cases hlt : lowerCut (lower.map val) lowerInc < upperCut (upper.map val) upperInc
  · rw [if_neg (fun hx => hcross.mp hx hlt)]
    exact ⟨h.canonical_of_lt rfl hl hu hlt, h.denote_eq rfl⟩
  · rw [if_pos (hcross.mpr hlt)]
    exact ⟨canonical_empty desc, by rw [denote_empty, Frame.between_eq_empty (not_lt.mp hlt)]⟩

end Reads

end Jed.Ranges
