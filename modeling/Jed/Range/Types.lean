import Jed.Range.SetOps
import Mathlib.Algebra.Order.Ring.Star
import Mathlib.Data.Rat.Star

/-!
# The range types

Each of the six range types reads its bounds as cuts, of the integers when its element steps and of
the rationals otherwise; and `finalize` builds exactly the canonical ranges.
-/

namespace Jed.Ranges

open Cuts

theorem elemCmp_int {elem : ScalarType} (helem : elem = .int32 ∨ elem = .int64 ∨ elem = .date)
    {a b : Value} (ha : OfElem elem a) (hb : OfElem elem b) :
    elemCmp a b = compare (intVal a) (intVal b) := by
  rcases helem with rfl | rfl | rfl <;> cases a <;> simp only [OfElem] at ha <;> cases b <;>
    simp only [OfElem] at hb <;> rfl

theorem compare_intCast (x y : ℤ) : compare (x : ℚ) (y : ℚ) = compare x y := by
  rcases lt_trichotomy x y with h | h | h
  · rw [compare_lt_iff_lt.mpr h, compare_lt_iff_lt.mpr (Int.cast_lt.mpr h)]
  · rw [compare_eq_iff_eq.mpr h, compare_eq_iff_eq.mpr (congrArg _ h)]
  · rw [compare_gt_iff_gt.mpr h, compare_gt_iff_gt.mpr (Int.cast_lt.mpr h)]

theorem elemCmp_rat {elem : ScalarType}
    (helem : elem = .decimal ∨ elem = .timestamp ∨ elem = .timestamptz) {a b : Value}
    (ha : OfElem elem a) (hb : OfElem elem b) : elemCmp a b = compare (ratVal a) (ratVal b) := by
  rcases helem with rfl | rfl | rfl <;> cases a <;> simp only [OfElem] at ha <;> cases b <;>
    simp only [OfElem] at hb
  · exact Decimal.cmpValue_eq _ _
  · exact (compare_intCast _ _).symm
  · exact (compare_intCast _ _).symm

theorem RANGES_discrete {desc : RangeDesc} (h : desc ∈ RANGES) : desc.discrete = true ↔
    desc.element = .int32 ∨ desc.element = .int64 ∨ desc.element = .date := by
  revert desc
  decide

theorem RANGES_continuous {desc : RangeDesc} (h : desc ∈ RANGES) : desc.discrete = false ↔
    desc.element = .decimal ∨ desc.element = .timestamp ∨ desc.element = .timestamptz := by
  revert desc
  decide

/-- The bounds of a discrete range type are cuts of the integers. -/
theorem reads_int {desc : RangeDesc} (h : desc ∈ RANGES) (hd : desc.discrete = true) :
    Reads desc intFrame intVal where
  point := rfl
  cmp _ _ ha hb := elemCmp_int ((RANGES_discrete h).mp hd) ha hb
  lower v inc hl := by
    refine ⟨v.map intVal, ?_⟩
    cases v with
    | none => rfl
    | some x => rw [hl.stepped hd (by simp)]
  upper v inc hu := ⟨v.map intVal, by rw [hu.stepped hd]⟩

theorem reads_rat {desc : RangeDesc} (h : desc ∈ RANGES) (hd : desc.discrete = false) :
    Reads desc (denseFrame ℚ) ratVal where
  point := rfl
  cmp _ _ ha hb := elemCmp_rat ((RANGES_continuous h).mp hd) ha hb
  lower _ inc _ := ⟨_, inc, rfl⟩
  upper _ inc _ := ⟨_, inc, rfl⟩

theorem increment_int32 {n : Int} {w : Value} (h : increment (.int n) .int32 = .ok w) :
    w = .int (n + 1) ∧ n + 1 ≤ i32Max := by
  simp only [increment] at h
  split at h
  · rename_i hle
    rw [Bool.and_eq_true] at hle
    exact ⟨(Except.ok.inj h).symm, of_decide_eq_true hle.2⟩
  · cases h

theorem increment_int64 {n : Int} {w : Value} (h : increment (.int n) .int64 = .ok w) :
    w = .int (n + 1) ∧ n + 1 ≤ i64Max := by
  simp only [increment] at h
  split at h
  · rename_i hle
    rw [Bool.and_eq_true] at hle
    exact ⟨(Except.ok.inj h).symm, of_decide_eq_true hle.1⟩
  · cases h

theorem increment_date {d : Int} {w : Value} (h : increment (.date d) .date = .ok w) :
    w = .date (d + 1) ∧ d + 1 < i32Max := by
  simp only [increment] at h
  split at h
  · rename_i hlt
    exact ⟨(Except.ok.inj h).symm, hlt⟩
  · cases h

/-- A step up stays in the element type, reaches no infinity, and is a step of one. -/
theorem increment_ok {desc : RangeDesc} (hdesc : desc ∈ RANGES) (hd : desc.discrete = true)
    {v w : Value} (hv : BoundOk desc v) (h : increment v desc.element = .ok w) :
    BoundOk desc w ∧ intVal w = intVal v + 1 := by
  obtain ⟨hv, hfin⟩ := hv
  rw [BoundOk]
  rcases (RANGES_discrete hdesc).mp hd with he | he | he <;> rw [he] at hv hfin h ⊢ <;>
    cases v <;> simp only [OfElem] at hv
  · obtain ⟨rfl, hle⟩ := increment_int32 h
    exact ⟨⟨⟨by omega, hle⟩, rfl⟩, rfl⟩
  · obtain ⟨rfl, hle⟩ := increment_int64 h
    exact ⟨⟨⟨by omega, hle⟩, rfl⟩, rfl⟩
  · obtain ⟨rfl, hlt⟩ := increment_date h
    refine ⟨⟨⟨by omega, hlt.le⟩, ?_⟩, rfl⟩
    simp only [isInfiniteDateBound, Bool.or_eq_false_iff, beq_eq_false_iff_ne]
    omega

/-- Equal bounds that step, both exclusive: the lower is stepped past the upper. -/
def OpenPoint (desc : RangeDesc) (lower upper : Option Value) (lowerInc upperInc : Bool) : Prop :=
  desc.discrete = true ∧ boundsCmp lower upper .eq = true ∧ lowerInc = false ∧ upperInc = false

/-- Bounds that `finalize` takes: each absent, or a finite value of the element type. -/
def BoundsOk (desc : RangeDesc) (lower upper : Option Value) : Prop :=
  (∀ v ∈ lower, BoundOk desc v) ∧ ∀ v ∈ upper, BoundOk desc v

section Finalize

variable {desc : RangeDesc} (hdesc : desc ∈ RANGES)
include hdesc

/-- The lower bound `finalize` keeps: the given one, or the step above an exclusive one. -/
theorem finalizeLower_ok {lower l : Option Value} {inc linc : Bool} (hl : ∀ v ∈ lower, BoundOk desc v)
    (h : finalizeLower desc lower inc = .ok (l, linc)) :
    LowerOk desc l linc ∧ (lower = none → l = none) ∧
      ∀ v ∈ lower, ∃ w ∈ l, if desc.discrete = true ∧ inc = false then intVal w = intVal v + 1
        else w = v ∧ linc = inc := by
  cases lower with
  | none =>
    obtain ⟨rfl, rfl⟩ := Prod.mk.inj (Except.ok.inj h)
    exact ⟨⟨by simp, fun _ => rfl, fun _ h => absurd rfl h⟩, fun _ => rfl, by simp⟩
  | some lo =>
    have hlo := hl lo rfl
    simp only [finalizeLower, hlo.2, Bool.not_false, Bool.and_true] at h
    by_cases hstep : desc.discrete = true ∧ inc = false
    · obtain ⟨hd, rfl⟩ := hstep
      rw [if_pos (by simp [hd])] at h
      cases hinc : increment lo desc.element with
      | error e => rw [hinc] at h; cases h
      | ok w =>
        rw [hinc] at h
        obtain ⟨rfl, rfl⟩ := Prod.mk.inj (Except.ok.inj h)
        obtain ⟨hw, hval⟩ := increment_ok hdesc hd hlo hinc
        refine ⟨⟨by simpa using hw, fun h => (by cases h), fun _ _ => rfl⟩, fun h => (by cases h), ?_⟩
        intro v hv
        obtain rfl := Option.some.inj hv
        exact ⟨w, rfl, by rw [if_pos ⟨hd, rfl⟩, hval]⟩
    · rw [if_neg (by simpa using hstep)] at h
      obtain ⟨rfl, rfl⟩ := Prod.mk.inj (Except.ok.inj h)
      refine ⟨⟨hl, fun h => (by cases h), fun hd _ => ?_⟩, fun h => h, fun v hv => ⟨v, hv, ?_⟩⟩
      · cases inc
        · exact absurd ⟨hd, rfl⟩ hstep
        · rfl
      · rw [if_neg hstep]
        exact ⟨rfl, rfl⟩

/-- The upper bound `finalize` keeps: the given one, or the step above an inclusive one. -/
theorem finalizeUpper_ok {upper u : Option Value} {inc uinc : Bool} (hu : ∀ v ∈ upper, BoundOk desc v)
    (h : finalizeUpper desc upper inc = .ok (u, uinc)) :
    UpperOk desc u uinc ∧ (upper = none → u = none) ∧
      ∀ v ∈ upper, ∃ w ∈ u, if desc.discrete = true ∧ inc = true then intVal w = intVal v + 1
        else w = v ∧ uinc = inc := by
  cases upper with
  | none =>
    obtain ⟨rfl, rfl⟩ := Prod.mk.inj (Except.ok.inj h)
    exact ⟨⟨by simp, fun _ => rfl, fun _ => rfl⟩, fun _ => rfl, by simp⟩
  | some hi =>
    have hhi := hu hi rfl
    simp only [finalizeUpper, hhi.2, Bool.not_false, Bool.and_true] at h
    by_cases hstep : desc.discrete = true ∧ inc = true
    · obtain ⟨hd, rfl⟩ := hstep
      rw [if_pos (by simp [hd])] at h
      cases hinc : increment hi desc.element with
      | error e => rw [hinc] at h; cases h
      | ok w =>
        rw [hinc] at h
        obtain ⟨rfl, rfl⟩ := Prod.mk.inj (Except.ok.inj h)
        obtain ⟨hw, hval⟩ := increment_ok hdesc hd hhi hinc
        refine ⟨⟨by simpa using hw, fun h => (by cases h), fun _ => rfl⟩, fun h => (by cases h), ?_⟩
        intro v hv
        obtain rfl := Option.some.inj hv
        exact ⟨w, rfl, by rw [if_pos ⟨hd, rfl⟩, hval]⟩
    · rw [if_neg (by simpa using hstep)] at h
      obtain ⟨rfl, rfl⟩ := Prod.mk.inj (Except.ok.inj h)
      refine ⟨⟨hu, fun h => (by cases h), fun hd => ?_⟩, fun h => h, fun v hv => ⟨v, hv, ?_⟩⟩
      · cases inc
        · rfl
        · exact absurd ⟨hd, rfl⟩ hstep
      · rw [if_neg hstep]
        exact ⟨rfl, rfl⟩

omit hdesc in
/-- The branches of `finalize` on bounds it takes. -/
theorem finalize_cases {lower upper : Option Value} {lowerInc upperInc : Bool} {r : Range}
    (h : finalize desc lower upper lowerInc upperInc = .ok r) :
    boundsCmp lower upper .gt = false ∧ ∃ l linc u uinc,
      finalizeLower desc lower lowerInc = .ok (l, linc) ∧
      finalizeUpper desc upper upperInc = .ok (u, uinc) ∧
      ((boundsCmp l u .eq = true ∧ ¬(linc = true ∧ uinc = true) ∧ r = .emptyRange) ∨
        ((boundsCmp l u .eq = true → linc = true ∧ uinc = true) ∧ r = ⟨false, l, u, linc, uinc⟩)) := by
  rw [finalize] at h
  split at h
  · cases h
  · rename_i hord
    refine ⟨by simpa using hord, ?_⟩
    cases hl : finalizeLower desc lower lowerInc with
    | error e => rw [hl] at h; cases h
    | ok l =>
      cases hu : finalizeUpper desc upper upperInc with
      | error e => rw [hl, hu] at h; cases h
      | ok u =>
        rw [hl, hu] at h
        simp only [bind, Except.bind] at h
        refine ⟨l.1, l.2, u.1, u.2, rfl, rfl, ?_⟩
        split at h
        · rename_i heq
          rw [Bool.and_eq_true, Bool.not_eq_true', Bool.and_eq_false_iff] at heq
          refine .inl ⟨heq.1, fun hboth => ?_, (Except.ok.inj h).symm⟩
          rcases heq.2 with h' | h' <;> simp [hboth] at h'
        · rename_i heq
          refine .inr ⟨fun heq' => ?_, (Except.ok.inj h).symm⟩
          simpa [heq'] using heq

/-- `finalize` builds canonical ranges, unless a step moves the lower bound past the upper. -/
theorem canonical_of_finalize {lower upper : Option Value} {lowerInc upperInc : Bool} {r : Range}
    (hb : BoundsOk desc lower upper) (hopen : ¬OpenPoint desc lower upper lowerInc upperInc)
    (h : finalize desc lower upper lowerInc upperInc = .ok r) : Canonical desc r := by
  obtain ⟨hord, l, linc, u, uinc, hl, hu, hr⟩ := finalize_cases h
  obtain ⟨hlok, hlnone, hlsome⟩ := finalizeLower_ok hdesc hb.1 hl
  obtain ⟨huok, hunone, husome⟩ := finalizeUpper_ok hdesc hb.2 hu
  rcases hr with ⟨-, -, rfl⟩ | ⟨hproper, rfl⟩
  · exact canonical_empty desc
  · refine ⟨fun h => (by cases h), fun _ => hlok, fun _ => huok, fun _ => ?_, fun _ => hproper⟩
    change boundsCmp l u .gt = false
    cases lower with
    | none => rw [hlnone rfl]; rfl
    | some x =>
      cases upper with
      | none => rw [hunone rfl]; cases l <;> rfl
      | some y =>
        obtain ⟨x', hx', hxstep⟩ := hlsome x rfl
        obtain ⟨y', hy', hystep⟩ := husome y rfl
        obtain rfl : l = some x' := hx'
        obtain rfl : u = some y' := hy'
        have hxe := (hb.1 x rfl).1
        have hye := (hb.2 y rfl).1
        cases hd : desc.discrete with
        | false =>
          obtain ⟨rfl, -⟩ := (by simpa [hd] using hxstep : x' = x ∧ linc = lowerInc)
          obtain ⟨rfl, -⟩ := (by simpa [hd] using hystep : y' = y ∧ uinc = upperInc)
          exact hord
        | true =>
          have helem := (RANGES_discrete hdesc).mp hd
          have hle : intVal x ≤ intVal y := by
            simpa [boundsCmp, elemCmp_int helem hxe hye, compare_gt_iff_gt] using hord
          simp only [boundsCmp, elemCmp_int helem (hlok.value x' rfl).1 (huok.value y' rfl).1,
            beq_eq_false_iff_ne, ne_eq, compare_gt_iff_gt, not_lt]
          cases hli : lowerInc with
          | true =>
            obtain ⟨rfl, -⟩ := (by simpa [hli] using hxstep : x' = x ∧ linc = true)
            cases hui : upperInc with
            | true =>
              have hstep : intVal y' = intVal y + 1 := by simpa [hd, hui] using hystep
              omega
            | false =>
              obtain ⟨rfl, -⟩ := (by simpa [hui] using hystep : y' = y ∧ uinc = false)
              exact hle
          | false =>
            have hxval : intVal x' = intVal x + 1 := by simpa [hd, hli] using hxstep
            cases hui : upperInc with
            | true =>
              have hstep : intVal y' = intVal y + 1 := by simpa [hd, hui] using hystep
              omega
            | false =>
              obtain ⟨rfl, -⟩ := (by simpa [hui] using hystep : y' = y ∧ uinc = false)
              have hne : intVal x ≠ intVal y' := by
                intro heq
                refine hopen ⟨hd, ?_, hli, hui⟩
                simp [boundsCmp, elemCmp_int helem hxe hye, heq]
              omega

/-- A canonical range is built from its own bounds. -/
theorem Canonical.finalize_eq {r : Range} (hc : Canonical desc r) : ∃ lower upper lowerInc upperInc,
    BoundsOk desc lower upper ∧ ¬OpenPoint desc lower upper lowerInc upperInc ∧
      finalize desc lower upper lowerInc upperInc = .ok r := by
  cases hr : r.empty with
  | true =>
    obtain ⟨v, hv, hrun⟩ : ∃ v, BoundOk desc v ∧
        finalize desc (some v) (some v) true false = .ok .emptyRange := by
      simp only [RANGES, List.mem_cons, List.not_mem_nil, or_false] at hdesc
      rcases hdesc with rfl | rfl | rfl | rfl | rfl | rfl
      · exact ⟨.int 0, ⟨⟨by decide, by decide⟩, rfl⟩, rfl⟩
      · exact ⟨.int 0, ⟨⟨by decide, by decide⟩, rfl⟩, rfl⟩
      · exact ⟨.decimal ⟨false, 0, 0, by simp⟩, ⟨trivial, rfl⟩, rfl⟩
      · exact ⟨.timestamp 0, ⟨⟨by decide, by decide⟩, rfl⟩, rfl⟩
      · exact ⟨.timestamptz 0, ⟨⟨by decide, by decide⟩, rfl⟩, rfl⟩
      · exact ⟨.date 0, ⟨⟨by decide, by decide⟩, by decide⟩, rfl⟩
    exact ⟨some v, some v, true, false, ⟨by simpa using hv, by simpa using hv⟩,
      fun h => (by cases h.2.2.1), hc.empty hr ▸ hrun⟩
  | false =>
    have hl := hc.lower hr
    have hu := hc.upper hr
    obtain ⟨empty, lower, upper, lowerInc, upperInc⟩ := r
    obtain rfl : empty = false := hr
    have hlow : finalizeLower desc lower lowerInc = .ok (lower, lowerInc) := by
      cases lower with
      | none => exact congrArg _ (congrArg _ (hl.unbounded rfl).symm)
      | some x =>
        cases hd : desc.discrete
        · simp [finalizeLower, hd]
        · have hinc : lowerInc = true := hl.stepped hd (by simp)
          simp [finalizeLower, hinc]
    have hup : finalizeUpper desc upper upperInc = .ok (upper, upperInc) := by
      cases upper with
      | none => exact congrArg _ (congrArg _ (hu.unbounded rfl).symm)
      | some y =>
        cases hd : desc.discrete
        · simp [finalizeUpper, hd]
        · have hinc : upperInc = false := hu.stepped hd
          simp [finalizeUpper, hinc]
    refine ⟨lower, upper, lowerInc, upperInc, ⟨hl.value, hu.value⟩, ?_, ?_⟩
    · rintro ⟨hd, heq, hli, -⟩
      have hne : lower ≠ none := by
        rintro rfl
        cases heq
      have := hl.stepped hd hne
      simp only at hli this
      rw [hli] at this
      cases this
    · have hord := hc.ordered rfl
      have hproper := hc.proper rfl
      simp only at hord hproper
      rw [finalize, if_neg (by simp [hord]), hlow, hup]
      simp only [bind, Except.bind]
      refine if_neg ?_
      intro hcross
      rw [Bool.and_eq_true, Bool.not_eq_true', Bool.and_eq_false_iff] at hcross
      obtain ⟨h1, h2⟩ := hproper hcross.1
      rcases hcross.2 with h' | h'
      · simp [h1] at h'
      · simp [h2] at h'

/-- The range `finalize` makes of an open point has no points, but is not the empty range. -/
theorem openPoint_denote {lower upper : Option Value} {lowerInc upperInc : Bool} {r : Range}
    (hb : BoundsOk desc lower upper) (hopen : OpenPoint desc lower upper lowerInc upperInc)
    (h : finalize desc lower upper lowerInc upperInc = .ok r) :
    r.empty = false ∧ denote intVal r = ∅ := by
  obtain ⟨hd, heq, rfl, rfl⟩ := hopen
  obtain ⟨hord, l, linc, u, uinc, hl, hu, hr⟩ := finalize_cases h
  obtain ⟨hlok, -, hlsome⟩ := finalizeLower_ok hdesc hb.1 hl
  obtain ⟨huok, -, husome⟩ := finalizeUpper_ok hdesc hb.2 hu
  have helem := (RANGES_discrete hdesc).mp hd
  cases lower with
  | none => cases heq
  | some x =>
    cases upper with
    | none => cases heq
    | some y =>
      have hxy : intVal x = intVal y := by
        simpa [boundsCmp, elemCmp_int helem (hb.1 x rfl).1 (hb.2 y rfl).1, compare_eq_iff_eq] using heq
      obtain ⟨x', hx', hxstep⟩ := hlsome x rfl
      obtain ⟨y', hy', hystep⟩ := husome y rfl
      obtain rfl : l = some x' := hx'
      obtain rfl : u = some y' := hy'
      have hxval : intVal x' = intVal x + 1 := by simpa [hd] using hxstep
      obtain ⟨rfl, rfl⟩ := (by simpa using hystep : y' = y ∧ uinc = false)
      have hlinc := hlok.stepped hd (by simp)
      rcases hr with ⟨hcmp, -, -⟩ | ⟨-, rfl⟩
      · simp only [boundsCmp, elemCmp_int helem (hlok.value x' rfl).1 (huok.value y' rfl).1,
          beq_iff_eq, compare_eq_iff_eq] at hcmp
        omega
      · refine ⟨rfl, Set.eq_empty_iff_forall_notMem.mpr fun n hn => ?_⟩
        obtain ⟨-, hlow, hhigh⟩ := hn
        have h1 := hlow x' rfl
        have h2 := hhigh y' rfl
        simp only [hlinc, if_true, Bool.false_eq_true, if_false] at h1 h2
        omega

/-- Every operator agrees with the sets, with `r` on either side of any canonical range. -/
def Agrees {ι : Type} [LinearOrder ι] (desc : RangeDesc) (val : Value → ι) (r : Range) : Prop :=
  ∀ b, Canonical desc b → SetSemantics desc val r b ∧ SetSemantics desc val b r

/-- The operators of a range that `finalize` builds are those of the sets of integers, or of
    rationals, that ranges denote, exactly when it is not built from an open point of a stepping
    element. The ranges built so are the canonical ones. -/
theorem range_operators_denote_iff {lower upper : Option Value} {lowerInc upperInc : Bool} {r : Range}
    (hb : BoundsOk desc lower upper) (h : finalize desc lower upper lowerInc upperInc = .ok r) :
    (desc.discrete = true →
      (Agrees desc intVal r ↔ ¬OpenPoint desc lower upper lowerInc upperInc)) ∧
    (desc.discrete = false →
      (Agrees desc ratVal r ↔ ¬OpenPoint desc lower upper lowerInc upperInc)) ∧
    ∀ b, Canonical desc b ↔ ∃ lower upper lowerInc upperInc, BoundsOk desc lower upper ∧
      ¬OpenPoint desc lower upper lowerInc upperInc ∧
      finalize desc lower upper lowerInc upperInc = .ok b := by
  refine ⟨fun hd => ⟨fun hagree hopen => ?_, fun hopen b hcb => ?_⟩,
    fun hd => ⟨fun _ hopen => ?_, fun hopen b hcb => ?_⟩, fun b => ⟨fun hcb => ?_, ?_⟩⟩
  · obtain ⟨hne, hden⟩ := openPoint_denote hdesc hb hopen h
    have hcontains := (hagree _ (canonical_empty desc)).2.contains
    rw [hden] at hcontains
    have hfalse : rangeContains .emptyRange r = false := by
      rw [rangeContains, if_neg (by simp [hne]), if_pos emptyRange_empty]
    rw [hfalse] at hcontains
    exact Bool.false_ne_true (hcontains.mpr (Set.empty_subset _))
  · have hc := canonical_of_finalize hdesc hb hopen h
    exact ⟨(reads_int hdesc hd).setSemantics hc hcb, (reads_int hdesc hd).setSemantics hcb hc⟩
  · exact absurd hopen.1 (by simp [hd])
  · have hc := canonical_of_finalize hdesc hb hopen h
    exact ⟨(reads_rat hdesc hd).setSemantics hc hcb, (reads_rat hdesc hd).setSemantics hcb hc⟩
  · exact hcb.finalize_eq hdesc
  · rintro ⟨lower, upper, lowerInc, upperInc, hb, hopen, h⟩
    exact canonical_of_finalize hdesc hb hopen h

end Finalize

/-- `int4range(1, 5)` and `int4range(3, 9)` overlap, so the sets they denote meet. -/
theorem range_operators_denote_iff_overlap :
    (denote intVal ⟨false, some (.int 1), some (.int 5), true, false⟩ ∩
      denote intVal ⟨false, some (.int 3), some (.int 9), true, false⟩).Nonempty := by
  have hdesc : (⟨"i32range", .int32, true⟩ : RangeDesc) ∈ RANGES := by decide
  have hb : ∀ m n : Int, i32Min ≤ m → m ≤ i32Max → i32Min ≤ n → n ≤ i32Max →
      BoundsOk ⟨"i32range", .int32, true⟩ (some (.int m)) (some (.int n)) := by
    intro m n h1 h2 h3 h4
    refine ⟨fun v hv => ?_, fun v hv => ?_⟩
    · obtain rfl := Option.some.inj hv
      exact ⟨⟨h1, h2⟩, rfl⟩
    · obtain rfl := Option.some.inj hv
      exact ⟨⟨h3, h4⟩, rfl⟩
  have hclosed : ∀ l u : Option Value,
      ¬OpenPoint ⟨"i32range", .int32, true⟩ l u true false := fun _ _ h => by cases h.2.2.1
  obtain ⟨hagree, -, hcan⟩ := @range_operators_denote_iff _ hdesc _ _ true false _
    (hb 1 5 (by decide) (by decide) (by decide) (by decide)) rfl
  have hother := (hcan ⟨false, some (.int 3), some (.int 9), true, false⟩).mpr
    ⟨_, _, true, false, hb 3 9 (by decide) (by decide) (by decide) (by decide), hclosed _ _, rfl⟩
  exact (((hagree rfl).mpr (hclosed _ _)) _ hother).1.overlaps.mp rfl

/-- `int4range(5, 5, '()')` is built as `[6,5)`, which has no points, and yet the empty range is not
    said to contain it. -/
theorem open_point_not_contained :
    finalize ⟨"i32range", .int32, true⟩ (some (.int 5)) (some (.int 5)) false false =
        .ok ⟨false, some (.int 6), some (.int 5), true, false⟩ ∧
      denote intVal ⟨false, some (.int 6), some (.int 5), true, false⟩ = ∅ ∧
      rangeContains .emptyRange ⟨false, some (.int 6), some (.int 5), true, false⟩ = false := by
  refine ⟨rfl, Set.eq_empty_iff_forall_notMem.mpr fun n hn => ?_, rfl⟩
  obtain ⟨-, hlow, hhigh⟩ := hn
  have h1 : (6 : ℤ) ≤ n := hlow (.int 6) rfl
  have h2 : n < (5 : ℤ) := hhigh (.int 5) rfl
  omega

end Jed.Ranges
