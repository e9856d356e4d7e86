import Mathlib.Data.Rat.Floor
import Mathlib.Tactic.Linarith
import Mathlib.Tactic.Positivity

/-!
# Row estimates

The arithmetic of the planner's estimates (`estimator.rs`): saturating sums and products of row counts, a
fraction of a count rounded up, and the number of rows a predicate leaves.
-/

namespace Jed.Estimator

/-- `MAX_ESTIMATE`, the largest `i64`. -/
def maxEstimate : ℤ := 9223372036854775807

/-- `EstimatorFraction`. -/
structure EstimatorFraction where
  numerator : ℤ
  denominator : ℤ
  deriving DecidableEq

/-- What the claims on fractions need of one: it is at most one, of an `i64`. -/
structure EstimatorFraction.Proper (f : EstimatorFraction) : Prop where
  nonneg : 0 ≤ f.numerator
  le : f.numerator ≤ f.denominator
  fits : f.denominator ≤ maxEstimate

/-- `Selectivity`. -/
inductive Selectivity where
  | all
  | zero
  | unique
  | fraction (f : EstimatorFraction)
  | not (child : Selectivity)
  | and (lhs rhs : Selectivity)
  | or (lhs rhs : Selectivity)

/-- Every fraction of the tree is at most one. -/
def Selectivity.Proper : Selectivity → Prop
  | all | zero | unique => True
  | fraction f => f.Proper
  | not child => child.Proper
  | and lhs rhs => lhs.Proper ∧ rhs.Proper
  | or lhs rhs => lhs.Proper ∧ rhs.Proper

/-- `or_selectivities`. -/
def orSelectivities (parts : List Selectivity) : Selectivity :=
  match parts with
  | [] => .zero
  | [part] => part
  | first :: second :: rest =>
    .or (orSelectivities ((first :: second :: rest).take ((rest.length + 2) / 2)))
      (orSelectivities ((first :: second :: rest).drop ((rest.length + 2) / 2)))
termination_by parts.length
decreasing_by
  · rw [List.length_take, List.length_cons, List.length_cons]
    omega
  · rw [List.length_drop, List.length_cons, List.length_cons]
    omega

/-- `i64::saturating_add`, and `i64::saturating_mul` of the product. -/
def saturate (x : ℤ) : ℤ := max (-9223372036854775808) (min maxEstimate x)

/-- `sat_add`. -/
def satAdd (a b : ℤ) : ℤ := min (saturate (a + b)) maxEstimate

/-- `sat_mul`. -/
def satMul (a b : ℤ) : ℤ := min (saturate (a * b)) maxEstimate

/-- `scale_ceil`. -/
def scaleCeil (n : ℤ) (f : EstimatorFraction) : ℤ :=
  if n = 0 ∨ f.numerator = 0 then 0
  else
    let quotient := n.tdiv f.denominator
    let remainder := n.tmod f.denominator
    let whole := satMul quotient f.numerator
    let tailProduct := satMul remainder f.numerator
    let tail := tailProduct.tdiv f.denominator +
      if tailProduct.tmod f.denominator ≠ 0 then 1 else 0
    satAdd whole tail

/-- `estimate_rows`. -/
def estimateRows : Selectivity → ℤ → ℤ
  | s, inputRows =>
    let n := max 0 (min maxEstimate inputRows)
    match s with
    | .all => n
    | .zero => 0
    | .unique => min n 1
    | .fraction f => scaleCeil n f
    | .not child => n - estimateRows child n
    | .and lhs rhs => estimateRows rhs (estimateRows lhs n)
    | .or lhs rhs => min (satAdd (estimateRows lhs n) (estimateRows rhs n)) n

/-- The least number of pieces of size `d` that hold `a`. -/
def pieces (a d : ℤ) : ℤ := a.tdiv d + if a.tmod d ≠ 0 then 1 else 0

/-- The tail of a fraction is computed in an `i64`: the product is at most the first multiple of the
    denominator that the largest `i64` does not exceed. -/
def Fits (n : ℤ) (f : EstimatorFraction) : Prop :=
  n % f.denominator * f.numerator ≤ f.denominator * pieces maxEstimate f.denominator

instance (n : ℤ) (f : EstimatorFraction) : Decidable (Fits n f) := Int.decLe _ _

attribute [grind =] scaleCeil estimateRows pieces

theorem saturate_of_le {x : ℤ} (h : 0 ≤ x) : saturate x = min x maxEstimate := by
  rw [saturate, maxEstimate]
  omega

variable {a b : ℤ}

theorem satAdd_of_nonneg (ha : 0 ≤ a) (hb : 0 ≤ b) : satAdd a b = min (a + b) maxEstimate := by
  rw [satAdd, saturate_of_le (Int.add_nonneg ha hb), min_assoc, min_self]

theorem satMul_of_nonneg (ha : 0 ≤ a) (hb : 0 ≤ b) : satMul a b = min (a * b) maxEstimate := by
  rw [satMul, saturate_of_le (Int.mul_nonneg ha hb), min_assoc, min_self]

/-- The pieces that hold `a` are those of the quotient rounded up. -/
theorem pieces_le_iff {d k : ℤ} (ha : 0 ≤ a) (hd : 0 < d) : pieces a d ≤ k ↔ a ≤ d * k := by
  rw [pieces, Int.tdiv_eq_ediv_of_nonneg ha, Int.tmod_eq_emod_of_nonneg ha]
  have hsplit := Int.mul_ediv_add_emod a d
  have hrem := Int.emod_nonneg a (Int.ne_of_gt hd)
  have hlt := Int.emod_lt_of_pos a hd
  constructor
  · intro h
    split at h
    · have := Int.mul_le_mul_of_nonneg_left h (Int.le_of_lt hd)
      rw [Int.mul_add, Int.mul_one] at this
      omega
    · rename_i hz
      have := Int.mul_le_mul_of_nonneg_left h (Int.le_of_lt hd)
      rw [Int.add_zero] at this
      omega
  · intro h
    have hk : a / d ≤ k := by
      have := Int.ediv_le_ediv hd h
      rwa [Int.mul_ediv_cancel_left _ (Int.ne_of_gt hd)] at this
    split
    · rename_i hz
      rcases Int.lt_or_eq_of_le hk with hk | hk
      · exact hk
      · rw [hk] at hsplit
        omega
    · rwa [Int.add_zero]

theorem pieces_eq_ceil {d : ℤ} (ha : 0 ≤ a) (hd : 0 < d) : pieces a d = ⌈(a : ℚ) / d⌉ := by
  have hd' : (0 : ℚ) < d := Int.cast_pos.mpr hd
  have h : ∀ k, pieces a d ≤ k ↔ ⌈(a : ℚ) / d⌉ ≤ k := by
    intro k
    rw [pieces_le_iff ha hd, Int.ceil_le, div_le_iff₀ hd', mul_comm d k]
    exact_mod_cast Iff.rfl
  exact Int.le_antisymm ((h _).mpr (Int.le_refl _)) ((h _).mp (Int.le_refl _))

section Fraction

variable {n : ℤ} {f : EstimatorFraction}

/-- What `scale_ceil` computes: the whole part exactly, the tail with its product saturated. -/
theorem scaleCeil_eq (hf : f.Proper) (hpos : 0 < f.numerator) (hn : 0 ≤ n) (hmax : n ≤ maxEstimate) :
    scaleCeil n f = n / f.denominator * f.numerator +
      pieces (min (n % f.denominator * f.numerator) maxEstimate) f.denominator := by
  obtain ⟨hnum, hle, hfits⟩ := hf
  have hd : 0 < f.denominator := Int.lt_of_lt_of_le hpos hle
  have hsplit := Int.mul_ediv_add_emod n f.denominator
  have hrem := Int.emod_nonneg n (Int.ne_of_gt hd)
  have hquot : 0 ≤ n / f.denominator := Int.ediv_nonneg hn (Int.le_of_lt hd)
  have htail : 0 ≤ n % f.denominator * f.numerator := Int.mul_nonneg hrem hnum
  have hwhole : 0 ≤ n / f.denominator * f.numerator := Int.mul_nonneg hquot hnum
  have hwhole_le : n / f.denominator * f.numerator ≤ f.denominator * (n / f.denominator) := by
    rw [Int.mul_comm f.denominator]
    exact Int.mul_le_mul_of_nonneg_left hle hquot
  -- the tail is at most the remainder, so that the sum does not saturate
  have hmin : 0 ≤ min (n % f.denominator * f.numerator) maxEstimate := by
    rw [maxEstimate]
    omega
  have hpieces : pieces (min (n % f.denominator * f.numerator) maxEstimate) f.denominator ≤
      n % f.denominator := by
    rw [pieces_le_iff hmin hd]
    have := Int.mul_le_mul_of_nonneg_left hle hrem
    rw [Int.mul_comm f.denominator]
    exact Int.le_trans (min_le_left _ _) this
  have hpieces_nonneg : 0 ≤ pieces (min (n % f.denominator * f.numerator) maxEstimate) f.denominator := by
    rw [pieces]
    have := Int.tdiv_nonneg hmin (Int.le_of_lt hd)
    split <;> omega
  rw [scaleCeil]
  by_cases hzero : n = 0
  · rw [if_pos (.inl hzero)]
    rw [hzero, Int.zero_emod] at hpieces hpieces_nonneg
    rw [hzero, Int.zero_ediv, Int.zero_emod]
    omega
  · rw [if_neg (by omega)]
    dsimp only
    rw [Int.tdiv_eq_ediv_of_nonneg hn, Int.tmod_eq_emod_of_nonneg hn, satMul_of_nonneg hquot hnum,
      satMul_of_nonneg hrem hnum, min_eq_left (by omega), ← pieces,
      satAdd_of_nonneg hwhole hpieces_nonneg, min_eq_left (by omega)]

/-- The exact fraction, in whole parts and tail. -/
theorem ceil_eq (hd : 0 < f.denominator) (hnum : 0 ≤ f.numerator) :
    ⌈((n * f.numerator : ℤ) : ℚ) / f.denominator⌉ = n / f.denominator * f.numerator +
      pieces (n % f.denominator * f.numerator) f.denominator := by
  have hd' : (f.denominator : ℚ) ≠ 0 := Int.cast_ne_zero.mpr (Int.ne_of_gt hd)
  have hsplit : n * f.numerator =
      n / f.denominator * f.numerator * f.denominator + n % f.denominator * f.numerator := by
    conv_lhs => rw [← Int.mul_ediv_add_emod n f.denominator]
    ring
  rw [pieces_eq_ceil (Int.mul_nonneg (Int.emod_nonneg n (Int.ne_of_gt hd)) hnum) hd, hsplit,
    Int.cast_add, Int.cast_mul _ f.denominator, add_div, mul_div_cancel_right₀ _ hd',
    Int.ceil_intCast_add]

/-- A fraction of a count is rounded up exactly where its tail fits, and is never over. -/
theorem scaleCeil_exact_iff (hf : f.Proper) (hpos : 0 < f.numerator) (hn : 0 ≤ n)
    (hmax : n ≤ maxEstimate) :
    scaleCeil n f = ⌈((n * f.numerator : ℤ) : ℚ) / f.denominator⌉ ↔ Fits n f := by
  have hd : 0 < f.denominator := Int.lt_of_lt_of_le hpos hf.le
  have hprod : 0 ≤ n % f.denominator * f.numerator :=
    Int.mul_nonneg (Int.emod_nonneg n (Int.ne_of_gt hd)) hf.nonneg
  have hmaxpos : 0 ≤ maxEstimate := by decide
  have hmin : 0 ≤ min (n % f.denominator * f.numerator) maxEstimate := le_min hprod hmaxpos
  rw [scaleCeil_eq hf hpos hn hmax, ceil_eq hd hf.nonneg, Int.add_right_inj, Fits,
    ← pieces_le_iff hprod hd]
  constructor
  · intro h
    rw [← h, pieces_le_iff hmin hd]
    exact Int.le_trans (min_le_right _ _) ((pieces_le_iff hmaxpos hd).mp (Int.le_refl _))
  · intro h
    rcases Int.le_total (n % f.denominator * f.numerator) maxEstimate with hle | hle
    · rw [min_eq_left hle]
    · rw [min_eq_right hle]
      apply Int.le_antisymm _ h
      rw [pieces_le_iff hmaxpos hd]
      exact Int.le_trans hle ((pieces_le_iff hprod hd).mp (Int.le_refl _))

theorem scaleCeil_zero (hzero : f.numerator = 0) : scaleCeil n f = 0 := by
  rw [scaleCeil, if_pos (.inr hzero)]

/-- A fraction of a count is in its range, whether the tail fits or not. -/
theorem scaleCeil_range (hf : f.Proper) (hn : 0 ≤ n) (hmax : n ≤ maxEstimate) :
    0 ≤ scaleCeil n f ∧ scaleCeil n f ≤ n := by
  rcases Int.lt_or_eq_of_le hf.nonneg with hpos | hzero
  · have hd : 0 < f.denominator := Int.lt_of_lt_of_le hpos hf.le
    have hrem := Int.emod_nonneg n (Int.ne_of_gt hd)
    have hsplit := Int.mul_ediv_add_emod n f.denominator
    have hquot : 0 ≤ n / f.denominator := Int.ediv_nonneg hn (Int.le_of_lt hd)
    have hprod : 0 ≤ n % f.denominator * f.numerator := Int.mul_nonneg hrem hf.nonneg
    have hmin : 0 ≤ min (n % f.denominator * f.numerator) maxEstimate := le_min hprod (by decide)
    have hwhole := Int.mul_le_mul_of_nonneg_left hf.le hquot
    have htail : pieces (min (n % f.denominator * f.numerator) maxEstimate) f.denominator ≤
        n % f.denominator := by
      rw [pieces_le_iff hmin hd, Int.mul_comm f.denominator]
      exact Int.le_trans (min_le_left _ _) (Int.mul_le_mul_of_nonneg_left hf.le hrem)
    have hnonneg : 0 ≤ pieces (min (n % f.denominator * f.numerator) maxEstimate) f.denominator := by
      have := Int.tdiv_nonneg hmin (Int.le_of_lt hd)
      rw [pieces]
      split <;> omega
    rw [Int.mul_comm] at hsplit
    rw [scaleCeil_eq hf hpos hn hmax]
    constructor
    · exact Int.add_nonneg (Int.mul_nonneg hquot hf.nonneg) hnonneg
    · omega
  · rw [scaleCeil_zero hzero.symm]
    exact ⟨Int.le_refl 0, hn⟩

theorem fits_of_zero (hf : f.Proper) (hzero : f.numerator = 0) : Fits n f := by
  rw [Fits, hzero, Int.mul_zero]
  have hd := hf.le
  have hden : 0 ≤ f.denominator := by omega
  have hnonneg : 0 ≤ pieces maxEstimate f.denominator := by
    have := Int.tdiv_nonneg (show 0 ≤ maxEstimate by decide) hden
    rw [pieces]
    split <;> omega
  exact Int.mul_nonneg hden hnonneg

end Fraction

/-- The scaled division is exact for denominators up to 3037000499, whose square is below the largest estimate. -/
theorem fits_of_denominator_le {n : ℤ} {f : EstimatorFraction} (hf : f.Proper)
    (hsmall : f.denominator ≤ 3037000499) : Fits n f := by
  rcases Int.lt_or_eq_of_le hf.nonneg with hpos | hzero
  · have hd : 0 < f.denominator := Int.lt_of_lt_of_le hpos hf.le
    have hlt := Int.emod_lt_of_pos n hd
    have hprod : n % f.denominator * f.numerator ≤ 3037000499 * 3037000499 :=
      Int.mul_le_mul (by omega) (Int.le_trans hf.le hsmall) hf.nonneg (by decide)
    have hmax := (pieces_le_iff (show 0 ≤ maxEstimate by decide) hd).mp (Int.le_refl _)
    exact Int.le_trans hprod (Int.le_trans (by decide) hmax)
  · exact fits_of_zero hf hzero.symm

theorem clamp_eq {n : ℤ} (hn : 0 ≤ n) (hmax : n ≤ maxEstimate) : max 0 (min maxEstimate n) = n := by
  omega

/-- A predicate leaves no more rows than it is given. -/
theorem estimateRows_range {s : Selectivity} (hs : s.Proper) {n : ℤ} (hn : 0 ≤ n)
    (hmax : n ≤ maxEstimate) : 0 ≤ estimateRows s n ∧ estimateRows s n ≤ n := by
  induction s generalizing n with
  | all => rw [estimateRows, clamp_eq hn hmax]; omega
  | zero => rw [estimateRows]; omega
  | unique => rw [estimateRows, clamp_eq hn hmax]; omega
  | fraction f =>
    rw [estimateRows, clamp_eq hn hmax]
    exact scaleCeil_range hs hn hmax
  | not child ih =>
    have := ih hs hn hmax
    rw [estimateRows, clamp_eq hn hmax]
    omega
  | and lhs rhs ihl ihr =>
    have hl := ihl hs.1 hn hmax
    have hr := ihr hs.2 hl.1 (Int.le_trans hl.2 hmax)
    rw [estimateRows, clamp_eq hn hmax]
    omega
  | or lhs rhs ihl ihr =>
    have hl := ihl hs.1 hn hmax
    have hr := ihr hs.2 hn hmax
    rw [estimateRows, clamp_eq hn hmax, satAdd_of_nonneg hl.1 hr.1]
    omega

/-- The alternatives folded from the left. -/
def leftFold : List Selectivity → Selectivity
  | [] => .zero
  | part :: parts => parts.foldl .or part

/-- The sum of the estimates of some alternatives. -/
def total (n : ℤ) (parts : List Selectivity) : ℤ := parts.foldr (fun part sum => estimateRows part n + sum) 0

section Alternatives

variable {n : ℤ}

theorem total_append (as bs : List Selectivity) : total n (as ++ bs) = total n as + total n bs := by
  induction as with
  | nil => exact (Int.zero_add _).symm
  | cons a as ih =>
    have hcons : ∀ cs, total n (a :: cs) = estimateRows a n + total n cs := fun _ => rfl
    rw [List.cons_append, hcons, hcons, ih, Int.add_assoc]

variable {parts : List Selectivity}

theorem total_nonneg (hn : 0 ≤ n) (hmax : n ≤ maxEstimate)
    (hparts : ∀ part ∈ parts, part.Proper) : 0 ≤ total n parts := by
  induction parts with
  | nil => exact Int.le_refl 0
  | cons part parts ih =>
    rw [List.forall_mem_cons] at hparts
    exact Int.add_nonneg (estimateRows_range hparts.1 hn hmax).1 (ih hparts.2)

theorem estimateRows_or (hn : 0 ≤ n) (hmax : n ≤ maxEstimate) {lhs rhs : Selectivity} {a b : ℤ}
    (ha : 0 ≤ a) (hb : 0 ≤ b) (hl : estimateRows lhs n = min a n) (hr : estimateRows rhs n = min b n) :
    estimateRows (.or lhs rhs) n = min (a + b) n := by
  rw [estimateRows, clamp_eq hn hmax, hl, hr, satAdd_of_nonneg (le_min ha hn) (le_min hb hn)]
  omega

/-- The balanced tree estimates the sum of its parts, capped. -/
theorem estimateRows_orSelectivities (hn : 0 ≤ n) (hmax : n ≤ maxEstimate)
    (hparts : ∀ part ∈ parts, part.Proper) :
    estimateRows (orSelectivities parts) n = min (total n parts) n := by
  induction parts using orSelectivities.induct with
  | case1 =>
    rw [orSelectivities, estimateRows]
    exact (min_eq_left hn).symm
  | case2 part =>
    have := estimateRows_range (hparts part List.mem_cons_self) hn hmax
    have htotal : total n [part] = estimateRows part n := Int.add_zero _
    rw [orSelectivities, htotal, min_eq_left this.2]
  | case3 first second rest ihl ihr =>
    have htake : ∀ part ∈ (first :: second :: rest).take ((rest.length + 2) / 2), part.Proper :=
      fun part h => hparts part (List.mem_of_mem_take h)
    have hdrop : ∀ part ∈ (first :: second :: rest).drop ((rest.length + 2) / 2), part.Proper :=
      fun part h => hparts part (List.mem_of_mem_drop h)
    rw [orSelectivities, estimateRows_or hn hmax (total_nonneg hn hmax htake)
      (total_nonneg hn hmax hdrop) (ihl htake) (ihr hdrop), ← total_append, List.take_append_drop]

/-- So does the fold from the left. -/
theorem estimateRows_foldl (hn : 0 ≤ n) (hmax : n ≤ maxEstimate)
    (hparts : ∀ part ∈ parts, part.Proper) {acc : Selectivity} {a : ℤ} (ha : 0 ≤ a)
    (hacc : estimateRows acc n = min a n) :
    estimateRows (parts.foldl .or acc) n = min (a + total n parts) n := by
  induction parts generalizing acc a with
  | nil => rw [List.foldl_nil, hacc, total, List.foldr_nil, Int.add_zero]
  | cons part parts ih =>
    rw [List.forall_mem_cons] at hparts
    have hpart := estimateRows_range hparts.1 hn hmax
    have hcons : total n (part :: parts) = estimateRows part n + total n parts := rfl
    rw [List.foldl_cons, ih hparts.2 (Int.add_nonneg ha hpart.1)
      (estimateRows_or hn hmax ha hpart.1 hacc (min_eq_left hpart.2).symm), hcons, Int.add_assoc]

theorem estimateRows_leftFold (hn : 0 ≤ n) (hmax : n ≤ maxEstimate) (hparts : ∀ part ∈ parts, part.Proper) :
    estimateRows (leftFold parts) n = min (total n parts) n := by
  cases parts with
  | nil =>
    rw [leftFold, estimateRows]
    exact (min_eq_left hn).symm
  | cons part parts =>
    rw [List.forall_mem_cons] at hparts
    have hpart := estimateRows_range hparts.1 hn hmax
    exact estimateRows_foldl hn hmax hparts.2 hpart.1 (min_eq_left hpart.2).symm

end Alternatives

/-- An estimate is in the range of its count, the alternatives may be folded in any shape, and a fraction
    of a count is exact precisely where its tail fits. -/
theorem estimates {n : ℤ} (hn : 0 ≤ n) (hmax : n ≤ maxEstimate) {s : Selectivity} (hs : s.Proper)
    {parts : List Selectivity} (hparts : ∀ part ∈ parts, part.Proper) {f : EstimatorFraction}
    (hf : f.Proper) :
    ((0 ≤ estimateRows s n ∧ estimateRows s n ≤ n) ∧
      estimateRows (orSelectivities parts) n = estimateRows (leftFold parts) n) ∧
    (scaleCeil n f = ⌈((n * f.numerator : ℤ) : ℚ) / f.denominator⌉ ↔ Fits n f) := by
  refine ⟨⟨estimateRows_range hs hn hmax, ?_⟩, ?_⟩
  · rw [estimateRows_orSelectivities hn hmax hparts, estimateRows_leftFold hn hmax hparts]
  · rcases Int.lt_or_eq_of_le hf.nonneg with hpos | hzero
    · exact scaleCeil_exact_iff hf hpos hn hmax
    · rw [scaleCeil_zero hzero.symm, ← hzero, Int.mul_zero, Int.cast_zero, zero_div, Int.ceil_zero]
      exact ⟨fun _ => fits_of_zero hf hzero.symm, fun _ => rfl⟩

/-- Half of 200 rows, and a disjunction of two such. -/
theorem estimates_half :
    ((0 ≤ estimateRows (.fraction ⟨1, 2⟩) 200 ∧ estimateRows (.fraction ⟨1, 2⟩) 200 ≤ 200) ∧
      estimateRows (orSelectivities [.fraction ⟨1, 2⟩, .unique]) 200 =
        estimateRows (leftFold [.fraction ⟨1, 2⟩, .unique]) 200) ∧
    (scaleCeil 200 ⟨1, 2⟩ = ⌈((200 * 1 : ℤ) : ℚ) / (2 : ℤ)⌉ ↔ Fits 200 ⟨1, 2⟩) := by
  have hf : (⟨1, 2⟩ : EstimatorFraction).Proper := ⟨by decide, by decide, by decide⟩
  have hs : (Selectivity.fraction ⟨1, 2⟩).Proper := hf
  refine estimates (by decide) (by decide) hs ?_ hf
  rw [List.forall_mem_cons, List.forall_mem_singleton]
  exact ⟨hs, trivial⟩

/-- Of four thousand million rows less one, the share of all but one in four thousand million: the product
    is saturated and the estimate is short. -/
theorem scaleCeil_saturates :
    scaleCeil 3999999999 ⟨3999999999, 4000000000⟩ = 2305843010 ∧
      ⌈((3999999999 * 3999999999 : ℤ) : ℚ) / (4000000000 : ℤ)⌉ = 3999999999 := by
  refine ⟨by decide, ?_⟩
  rw [Int.ceil_eq_iff]
  norm_num

end Jed.Estimator
