import Jed.Range.Denote

/-!
# The operators are those of sets

Relations and operations of canonical ranges are relations and operations of the sets they denote.
-/

namespace Jed.Ranges

open Cuts

section Ops

variable {ι : Type} [LinearOrder ι] {desc : RangeDesc} {F : Frame ι (Cut ι)} {val : Value → ι}
  {a b r : Range}

theorem Canonical.cases (hc : Canonical desc r) (h : Reads desc F val) :
    (r = .emptyRange ∧ denote val r = ∅) ∨
      (r.empty = false ∧ denote val r = F.between (lowCut val r) (upCut val r) ∧
        F.Lower (lowCut val r) ∧ F.Upper (upCut val r) ∧ lowCut val r < upCut val r) := by
  cases hr : r.empty with
  | true => exact .inl ⟨hc.empty hr, by rw [hc.empty hr, denote_empty]⟩
  | false =>
    exact .inr ⟨rfl, h.denote_eq hr, h.lower _ _ (hc.lower hr), h.upper _ _ (hc.upper hr),
      h.lowCut_lt_upCut hc hr⟩

variable (h : Reads desc F val) (ha : Canonical desc a) (hb : Canonical desc b)
  (hae : a.empty = false) (hbe : b.empty = false)
include h ha hb hae hbe

theorem Reads.cmpLL : cmpLL a b = compare (lowCut val a) (lowCut val b) :=
  h.cmpBounds (ha.lower_elem hae) (hb.lower_elem hbe) _ _ _ _

theorem Reads.cmpLU : cmpLU a b = compare (lowCut val a) (upCut val b) :=
  h.cmpBounds (ha.lower_elem hae) (hb.upper_elem hbe) _ _ _ _

theorem Reads.cmpUL : cmpUL a b = compare (upCut val a) (lowCut val b) :=
  h.cmpBounds (ha.upper_elem hae) (hb.lower_elem hbe) _ _ _ _

theorem Reads.cmpUU : cmpUU a b = compare (upCut val a) (upCut val b) :=
  h.cmpBounds (ha.upper_elem hae) (hb.upper_elem hbe) _ _ _ _

theorem Reads.boundsTouch : boundsTouch a.upper a.upperInc b.lower b.lowerInc = true ↔
    upCut val a ⋖ lowCut val b := by
  rw [upCut, lowCut, upperCut_covBy_lowerCut]
  cases hu : a.upper with
  | none => simp [Ranges.boundsTouch]
  | some u =>
    cases hl : b.lower with
    | none => simp [Ranges.boundsTouch]
    | some l =>
      have hcmp := h.cmp u l (ha.upper_elem hae u hu) (hb.lower_elem hbe l hl)
      simp only [Ranges.boundsTouch, hcmp, Option.map_some, Option.some.injEq, Bool.and_eq_true,
        beq_iff_eq, compare_eq_iff_eq, bne_iff_ne]
      constructor
      · rintro ⟨heq, hne⟩
        exact ⟨val u, rfl, heq.symm, hne⟩
      · rintro ⟨v, rfl, heq, hne⟩
        exact ⟨heq.symm, hne⟩

end Ops

/-- The operators on two ranges are those of the sets the ranges denote. -/
structure SetSemantics {ι : Type} [LinearOrder ι] (desc : RangeDesc) (val : Value → ι)
    (a b : Range) : Prop where
  containsElem : ∀ e, OfElem desc.element e → (rangeContainsElem a e = true ↔ val e ∈ denote val a)
  contains : rangeContains a b = true ↔ denote val b ⊆ denote val a
  overlaps : rangeOverlaps a b = true ↔ (denote val a ∩ denote val b).Nonempty
  before : rangeBefore a b = true ↔ (denote val a).Nonempty ∧ (denote val b).Nonempty ∧
    ∀ x ∈ denote val a, ∀ y ∈ denote val b, x < y
  overleft : rangeOverleft a b = true ↔ (denote val a).Nonempty ∧ (denote val b).Nonempty ∧
    ∀ x ∈ denote val a, ∃ y ∈ denote val b, x ≤ y
  overright : rangeOverright a b = true ↔ (denote val a).Nonempty ∧ (denote val b).Nonempty ∧
    ∀ x ∈ denote val a, ∃ y ∈ denote val b, y ≤ x
  adjacent : rangeAdjacent a b = true ↔ (denote val a).Nonempty ∧ (denote val b).Nonempty ∧
    Disjoint (denote val a) (denote val b) ∧ (denote val a ∪ denote val b).OrdConnected
  intersect : Canonical desc (rangeIntersect a b) ∧
    denote val (rangeIntersect a b) = denote val a ∩ denote val b
  union : ((denote val a ∪ denote val b).OrdConnected → ∃ r, rangeUnion a b true = .ok r ∧
      Canonical desc r ∧ denote val r = denote val a ∪ denote val b) ∧
    (¬(denote val a ∪ denote val b).OrdConnected →
      rangeUnion a b true = .error (.error unionNotContiguous))
  minus : ((denote val a \ denote val b).OrdConnected → ∃ r, rangeMinus a b = .ok r ∧
      Canonical desc r ∧ denote val r = denote val a \ denote val b) ∧
    (¬(denote val a \ denote val b).OrdConnected →
      rangeMinus a b = .error (.error differenceNotContiguous) ∧
      ∃ P Q : Set ι, P.Nonempty ∧ Q.Nonempty ∧ denote val a \ denote val b = P ∪ Q ∧
        ∀ x ∈ P, ∀ y ∈ Q, x < y)

section Semantics

variable {ι : Type} [LinearOrder ι] {desc : RangeDesc} {F : Frame ι (Cut ι)} {val : Value → ι}
  {a b r : Range}

theorem Reads.containsElem (h : Reads desc F val) (hr : Canonical desc r) {e : Value}
    (he : OfElem desc.element e) : rangeContainsElem r e = true ↔ val e ∈ denote val r := by
  unfold rangeContainsElem
  by_cases hre : r.empty = true
  · simp [hre, denote]
  · rw [Bool.not_eq_true] at hre
    rw [hre, if_neg Bool.false_ne_true, Bool.and_eq_true]
    simp only [denote, Set.mem_ofPred_eq, hre, true_and]
    refine and_congr ?_ ?_
    · cases hlo : r.lower with
      | none => simp
      | some lo =>
        have hcmp := h.cmp e lo he (hr.lower_elem hre lo hlo)
        simp only [hcmp, Option.mem_def, Option.some.injEq, forall_eq']
        rcases lt_trichotomy (val e) (val lo) with hlt | heq | hgt
        · rw [compare_lt_iff_lt.mpr hlt]
          cases r.lowerInc <;> simp [hlt, hlt.le]
        · rw [compare_eq_iff_eq.mpr heq]
          cases r.lowerInc <;> simp [heq]
        · rw [compare_gt_iff_gt.mpr hgt]
          cases r.lowerInc <;> simp [hgt, hgt.le]
    · cases hhi : r.upper with
      | none => simp
      | some hi =>
        have hcmp := h.cmp e hi he (hr.upper_elem hre hi hhi)
        simp only [hcmp, Option.mem_def, Option.some.injEq, forall_eq']
        rcases lt_trichotomy (val e) (val hi) with hlt | heq | hgt
        · rw [compare_lt_iff_lt.mpr hlt]
          cases r.upperInc <;> simp [hlt, hlt.le]
        · rw [compare_eq_iff_eq.mpr heq]
          cases r.upperInc <;> simp [heq]
        · rw [compare_gt_iff_gt.mpr hgt]
          cases r.upperInc <;> simp [hgt, hgt.le]

theorem emptyRange_empty : (RangeVal.emptyRange : Range).empty = true := rfl

section Binary

variable (h : Reads desc F val) (ha : Canonical desc a) (hb : Canonical desc b)
include h ha hb

theorem Reads.contains : rangeContains a b = true ↔ denote val b ⊆ denote val a := by
  unfold rangeContains
  rcases hb.cases h with ⟨rfl, hdb⟩ | ⟨hbe, hdb, hbl, hbu, hblt⟩
  · simp [hdb, emptyRange_empty]
  · rw [if_neg (by simp [hbe]), hdb]
    rcases ha.cases h with ⟨rfl, hda⟩ | ⟨hae, hda, hal, hau, halt⟩
    · rw [if_pos emptyRange_empty, hda, Set.subset_empty_iff, ← Set.not_nonempty_iff_eq_empty,
        Frame.between_nonempty hbl hbu]
      simp [hblt]
    · rw [if_neg (by simp [hae]), hda, Frame.subset_iff hbl hbu hal hau hblt, h.cmpLL ha hb hae hbe,
        h.cmpUU ha hb hae hbe]
      simp only [Bool.and_eq_true, bne_iff_ne, compare_le_iff_le, compare_ge_iff_ge]

/-- Two ranges that are not empty overlap when each starts before the other ends. -/
theorem Reads.overlaps_iff (hae : a.empty = false) (hbe : b.empty = false) :
    rangeOverlaps a b = true ↔
      max (lowCut val a) (lowCut val b) < min (upCut val a) (upCut val b) := by
  obtain ⟨-, -, hal, hau, halt⟩ := (ha.cases h).resolve_left fun h' => by simp [h'.1, emptyRange_empty] at hae
  obtain ⟨-, -, hbl, hbu, hblt⟩ := (hb.cases h).resolve_left fun h' => by simp [h'.1, emptyRange_empty] at hbe
  rw [rangeOverlaps, if_neg (by simp [hae, hbe])]
  simp only [lowerWithin, h.cmpLL ha hb hae hbe, h.cmpLU ha hb hae hbe, h.cmpLL hb ha hbe hae,
    h.cmpLU hb ha hbe hae, Bool.or_eq_true, Bool.and_eq_true, bne_iff_ne, compare_le_iff_le,
    compare_ge_iff_ge, Frame.lower_le_upper hal hbu, Frame.lower_le_upper hbl hau,
    max_lt_iff, lt_min_iff]
  constructor
  · rintro (⟨hle, hlt⟩ | ⟨hle, hlt⟩)
    · exact ⟨⟨halt, hle.trans_lt halt⟩, hlt, hblt⟩
    · exact ⟨⟨halt, hlt⟩, hle.trans_lt hblt, hblt⟩
  · rintro ⟨⟨-, hlt⟩, hlt', -⟩
    rcases le_total (lowCut val a) (lowCut val b) with hle | hle
    · exact .inr ⟨hle, hlt⟩
    · exact .inl ⟨hle, hlt'⟩

theorem Reads.overlaps :
    rangeOverlaps a b = true ↔ (denote val a ∩ denote val b).Nonempty := by
  rcases ha.cases h with ⟨rfl, hda⟩ | ⟨hae, hda, hal, hau, -⟩
  · simp [rangeOverlaps, hda, emptyRange_empty]
  · rcases hb.cases h with ⟨rfl, hdb⟩ | ⟨hbe, hdb, hbl, hbu, -⟩
    · simp [rangeOverlaps, hdb, emptyRange_empty]
    · rw [h.overlaps_iff ha hb hae hbe, hda, hdb, Frame.overlap_iff hal hau hbl hbu]

theorem Reads.before : rangeBefore a b = true ↔ (denote val a).Nonempty ∧ (denote val b).Nonempty ∧
    ∀ x ∈ denote val a, ∀ y ∈ denote val b, x < y := by
  rcases ha.cases h with ⟨rfl, hda⟩ | ⟨hae, hda, hal, hau, halt⟩
  · simp [rangeBefore, hda, emptyRange_empty]
  · rcases hb.cases h with ⟨rfl, hdb⟩ | ⟨hbe, hdb, hbl, hbu, hblt⟩
    · simp [rangeBefore, hdb, emptyRange_empty]
    · rw [hda, hdb, Frame.before_iff hal hau hbl hbu halt hblt, Frame.between_nonempty hal hau,
        Frame.between_nonempty hbl hbu, rangeBefore, if_neg (by simp [hae, hbe]),
        h.cmpUL ha hb hae hbe]
      simp [halt, hblt, compare_lt_iff_lt]

theorem Reads.overleft : rangeOverleft a b = true ↔ (denote val a).Nonempty ∧
    (denote val b).Nonempty ∧ ∀ x ∈ denote val a, ∃ y ∈ denote val b, x ≤ y := by
  rcases ha.cases h with ⟨rfl, hda⟩ | ⟨hae, hda, hal, hau, halt⟩
  · simp [rangeOverleft, hda, emptyRange_empty]
  · rcases hb.cases h with ⟨rfl, hdb⟩ | ⟨hbe, hdb, hbl, hbu, hblt⟩
    · simp [rangeOverleft, hdb, emptyRange_empty]
    · rw [hda, hdb, Frame.overleft_iff hal hau hbl hbu halt hblt, Frame.between_nonempty hal hau,
        Frame.between_nonempty hbl hbu, rangeOverleft, if_neg (by simp [hae, hbe]),
        h.cmpUU ha hb hae hbe]
      simp [halt, hblt, compare_le_iff_le]

theorem Reads.overright : rangeOverright a b = true ↔ (denote val a).Nonempty ∧
    (denote val b).Nonempty ∧ ∀ x ∈ denote val a, ∃ y ∈ denote val b, y ≤ x := by
  rcases ha.cases h with ⟨rfl, hda⟩ | ⟨hae, hda, hal, hau, halt⟩
  · simp [rangeOverright, hda, emptyRange_empty]
  · rcases hb.cases h with ⟨rfl, hdb⟩ | ⟨hbe, hdb, hbl, hbu, hblt⟩
    · simp [rangeOverright, hdb, emptyRange_empty]
    · rw [hda, hdb, Frame.overright_iff hal hau hbl hbu halt hblt, Frame.between_nonempty hal hau,
        Frame.between_nonempty hbl hbu, rangeOverright, if_neg (by simp [hae, hbe]),
        h.cmpLL ha hb hae hbe]
      simp [halt, hblt, compare_ge_iff_ge]

theorem Reads.adjacent_iff (hae : a.empty = false) (hbe : b.empty = false) :
    rangeAdjacent a b = true ↔ upCut val a ⋖ lowCut val b ∨ upCut val b ⋖ lowCut val a := by
  rw [rangeAdjacent, if_neg (by simp [hae, hbe]), Bool.or_eq_true, h.boundsTouch ha hb hae hbe,
    h.boundsTouch hb ha hbe hae]

theorem Reads.adjacent : rangeAdjacent a b = true ↔ (denote val a).Nonempty ∧
    (denote val b).Nonempty ∧ Disjoint (denote val a) (denote val b) ∧
    (denote val a ∪ denote val b).OrdConnected := by
  rcases ha.cases h with ⟨rfl, hda⟩ | ⟨hae, hda, hal, hau, halt⟩
  · simp [rangeAdjacent, hda, emptyRange_empty]
  · rcases hb.cases h with ⟨rfl, hdb⟩ | ⟨hbe, hdb, hbl, hbu, hblt⟩
    · simp [rangeAdjacent, hdb, emptyRange_empty]
    · rw [h.adjacent_iff ha hb hae hbe, hda, hdb, Frame.adjacent_iff hal hau hbl hbu halt hblt,
        Frame.between_nonempty hal hau, Frame.between_nonempty hbl hbu]
      simp [halt, hblt]

theorem Reads.intersect : Canonical desc (rangeIntersect a b) ∧
    denote val (rangeIntersect a b) = denote val a ∩ denote val b := by
  by_cases hover : rangeOverlaps a b = true
  · have hne : a.empty = false ∧ b.empty = false := by
      rw [rangeOverlaps] at hover
      cases hae : a.empty <;> cases hbe : b.empty <;> simp [hae, hbe] at hover ⊢
    obtain ⟨hae, hbe⟩ := hne
    rw [rangeIntersect, if_neg (by simp [hae, hbe, hover]), h.cmpLL ha hb hae hbe,
      h.cmpUU ha hb hae hbe, h.denote_eq hae, h.denote_eq hbe, Frame.between_inter]
    set l := if compare (lowCut val a) (lowCut val b) != .lt then a else b with hl
    set u := if compare (upCut val a) (upCut val b) != .gt then a else b with hu
    have hlow : LowerOk desc l.lower l.lowerInc ∧ lowCut val l = max (lowCut val a) (lowCut val b) := by
      rw [hl]
      split
      · rename_i hc
        rw [bne_iff_ne, compare_ge_iff_ge] at hc
        exact ⟨ha.lower hae, (max_eq_left hc).symm⟩
      · rename_i hc
        rw [bne_iff_ne, not_not, compare_lt_iff_lt] at hc
        exact ⟨hb.lower hbe, (max_eq_right hc.le).symm⟩
    have hup : UpperOk desc u.upper u.upperInc ∧ upCut val u = min (upCut val a) (upCut val b) := by
      rw [hu]
      split
      · rename_i hc
        rw [bne_iff_ne, compare_le_iff_le] at hc
        exact ⟨ha.upper hae, (min_eq_left hc).symm⟩
      · rename_i hc
        rw [bne_iff_ne, not_not, compare_gt_iff_gt] at hc
        exact ⟨hb.upper hbe, (min_eq_right (le_of_lt hc)).symm⟩
    obtain ⟨hcan, hden⟩ := h.makeRange hlow.1 hup.1
    exact ⟨hcan, by rw [hden, ← lowCut, ← upCut, hlow.2, hup.2]⟩
  · have hempty : rangeIntersect a b = .emptyRange := by
      rw [rangeIntersect, if_pos (by simp [hover])]
    rw [h.overlaps ha hb, Set.not_nonempty_iff_eq_empty] at hover
    rw [hempty, denote_empty, hover]
    exact ⟨canonical_empty desc, rfl⟩

theorem Reads.union_ok (hconn : (denote val a ∪ denote val b).OrdConnected) :
    ∃ r, rangeUnion a b true = .ok r ∧ Canonical desc r ∧ denote val r = denote val a ∪ denote val b := by
  rcases ha.cases h with ⟨rfl, hda⟩ | ⟨hae, hda, hal, hau, halt⟩
  · exact ⟨b, by rw [rangeUnion, if_pos emptyRange_empty], hb, by rw [hda, Set.empty_union]⟩
  · rcases hb.cases h with ⟨rfl, hdb⟩ | ⟨hbe, hdb, hbl, hbu, hblt⟩
    · exact ⟨a, by rw [rangeUnion, if_neg (by simp [hae]), if_pos emptyRange_empty], ha,
        by rw [hdb, Set.union_empty]⟩
    · rw [hda, hdb, Frame.union_ordConnected_iff hal hau hbl hbu halt hblt] at hconn
      have hjoin : rangeOverlaps a b = true ∨ rangeAdjacent a b = true := by
        rw [h.overlaps ha hb, h.adjacent_iff ha hb hae hbe, hda, hdb]
        exact hconn
      have hstrict : (true && !rangeOverlaps a b && !rangeAdjacent a b) = false := by
        rcases hjoin with hj | hj <;> simp [hj]
      rw [rangeUnion, if_neg (by simp [hae]), if_neg (by simp [hbe]),
        if_neg (by rw [hstrict]; exact Bool.false_ne_true),
        h.cmpLL ha hb hae hbe, h.cmpUU ha hb hae hbe]
      set l := if compare (lowCut val a) (lowCut val b) == .lt then a else b with hl
      set u := if compare (upCut val a) (upCut val b) == .gt then a else b with hu
      have hlow : LowerOk desc l.lower l.lowerInc ∧
          lowCut val l = min (lowCut val a) (lowCut val b) := by
        rw [hl]
        split
        · rename_i hc
          rw [beq_iff_eq, compare_lt_iff_lt] at hc
          exact ⟨ha.lower hae, (min_eq_left hc.le).symm⟩
        · rename_i hc
          rw [beq_iff_eq, ← ne_eq, compare_ge_iff_ge] at hc
          exact ⟨hb.lower hbe, (min_eq_right hc).symm⟩
      have hup : UpperOk desc u.upper u.upperInc ∧ upCut val u = max (upCut val a) (upCut val b) := by
        rw [hu]
        split
        · rename_i hc
          rw [beq_iff_eq, compare_gt_iff_gt] at hc
          exact ⟨ha.upper hae, (max_eq_left (le_of_lt hc)).symm⟩
        · rename_i hc
          rw [beq_iff_eq, ← ne_eq, compare_le_iff_le] at hc
          exact ⟨hb.upper hbe, (max_eq_right hc).symm⟩
      have hlt : lowCut val ⟨false, l.lower, u.upper, l.lowerInc, u.upperInc⟩ <
          upCut val ⟨false, l.lower, u.upper, l.lowerInc, u.upperInc⟩ := by
        change lowCut val l < upCut val u
        rw [hlow.2, hup.2]
        exact (min_le_left _ _).trans_lt (halt.trans_le (le_max_left _ _))
      refine ⟨_, rfl, h.canonical_of_lt rfl hlow.1 hup.1 hlt, ?_⟩
      rw [h.denote_eq rfl, hda, hdb, Frame.union_eq hal hau hbl hbu halt hblt hconn]
      change F.between (lowCut val l) (upCut val u) = _
      rw [hlow.2, hup.2]

theorem Reads.union_error (hgap : ¬(denote val a ∪ denote val b).OrdConnected) :
    rangeUnion a b true = .error (.error unionNotContiguous) := by
  rcases ha.cases h with ⟨rfl, hda⟩ | ⟨hae, hda, hal, hau, halt⟩
  · rcases hb.cases h with ⟨rfl, hdb⟩ | ⟨-, hdb, -⟩
    · exact absurd (by rw [hda, Set.empty_union]; exact Set.ordConnected_empty) hgap
    · exact absurd (by rw [hda, hdb, Set.empty_union]; exact Frame.between_ordConnected _ _) hgap
  · rcases hb.cases h with ⟨rfl, hdb⟩ | ⟨hbe, hdb, hbl, hbu, hblt⟩
    · exact absurd (by rw [hda, hdb, Set.union_empty]; exact Frame.between_ordConnected _ _) hgap
    · rw [hda, hdb, Frame.union_ordConnected_iff hal hau hbl hbu halt hblt, not_or] at hgap
      have hover : rangeOverlaps a b = false := by
        rw [Bool.eq_false_iff, ne_eq, h.overlaps ha hb, hda, hdb]
        exact hgap.1
      have hadj : rangeAdjacent a b = false := by
        rw [Bool.eq_false_iff, ne_eq, h.adjacent_iff ha hb hae hbe]
        exact hgap.2
      rw [rangeUnion, if_neg (by simp [hae]), if_neg (by simp [hbe]), if_pos (by simp [hover, hadj])]

/-- The branches of `range_minus`: two pieces, nothing in common, all covered, and a cover of the
    right or of the left part. -/
theorem Reads.minus_cases (hae : a.empty = false) (hbe : b.empty = false) :
    (lowCut val a < lowCut val b ∧ upCut val b < upCut val a ∧
      rangeMinus a b = .error (.error differenceNotContiguous)) ∨
    ((upCut val b < lowCut val a ∨ upCut val a < lowCut val b) ∧ rangeMinus a b = .ok a) ∨
    (lowCut val b ≤ lowCut val a ∧ upCut val a ≤ upCut val b ∧ rangeMinus a b = .ok .emptyRange) ∨
    (lowCut val a < lowCut val b ∧ lowCut val b < upCut val a ∧ upCut val a ≤ upCut val b ∧
      rangeMinus a b = .ok (Ranges.makeRange a.lower b.lower a.lowerInc (!b.lowerInc))) ∨
    (lowCut val b ≤ lowCut val a ∧ upCut val b < upCut val a ∧ lowCut val a < upCut val b ∧
      rangeMinus a b = .ok (Ranges.makeRange b.upper a.upper (!b.upperInc) a.upperInc)) := by
  have hLL := h.cmpLL ha hb hae hbe
  have hLU := h.cmpLU ha hb hae hbe
  have hUL := h.cmpUL ha hb hae hbe
  have hUU := h.cmpUU ha hb hae hbe
  have hal := h.lower _ _ (ha.lower hae)
  have hau := h.upper _ _ (ha.upper hae)
  have hbl := h.lower _ _ (hb.lower hbe)
  have hbu := h.upper _ _ (hb.upper hbe)
  rw [rangeMinus, if_neg (by simp [hae, hbe]), hLL, hLU, hUL, hUU]
  simp only [Bool.and_eq_true, Bool.or_eq_true, beq_iff_eq, bne_iff_ne, compare_lt_iff_lt,
    compare_gt_iff_gt, compare_le_iff_le, compare_ge_iff_ge]
  by_cases htwo : lowCut val a < lowCut val b ∧ upCut val b < upCut val a
  · exact .inl ⟨htwo.1, htwo.2, if_pos htwo⟩
  · rw [if_neg htwo]
    by_cases hdis : upCut val b < lowCut val a ∨ upCut val a < lowCut val b
    · exact .inr (.inl ⟨hdis, if_pos hdis⟩)
    · rw [if_neg hdis]
      rw [not_or, not_lt, not_lt] at hdis
      obtain ⟨hlu, hul⟩ := hdis
      by_cases hcov : lowCut val b ≤ lowCut val a ∧ upCut val a ≤ upCut val b
      · exact .inr (.inr (.inl ⟨hcov.1, hcov.2, if_pos hcov⟩))
      · rw [if_neg hcov]
        by_cases hlow : lowCut val a < lowCut val b
        · have huu : upCut val a ≤ upCut val b := not_lt.mp fun hu => htwo ⟨hlow, hu⟩
          have hlt : lowCut val b < upCut val a := (Frame.lower_le_upper hbl hau).mp hul
          exact .inr (.inr (.inr (.inl ⟨hlow, hlt, huu, if_pos ⟨⟨hlow.le, hul⟩, huu⟩⟩)))
        · have hll : lowCut val b ≤ lowCut val a := not_lt.mp hlow
          have huu : upCut val b < upCut val a := not_le.mp fun hu => hcov ⟨hll, hu⟩
          have hlt : lowCut val a < upCut val b := (Frame.lower_le_upper hal hbu).mp hlu
          have hright : ¬((lowCut val a ≤ lowCut val b ∧ lowCut val b ≤ upCut val a) ∧
              upCut val a ≤ upCut val b) := fun hr => not_lt.mpr hr.2 huu
          rw [if_neg hright, if_pos ⟨⟨hll, huu.le⟩, hlu⟩]
          exact .inr (.inr (.inr (.inr ⟨hll, huu, hlt, rfl⟩)))

end Binary

theorem LowerOk.flip {v : Option Value} {inc : Bool} (hl : LowerOk desc v inc) (hv : v ≠ none) :
    UpperOk desc v (!inc) ∧ upperCut (v.map val) (!inc) ⋖ lowerCut (v.map val) inc := by
  obtain ⟨x, rfl⟩ := Option.ne_none_iff_exists'.mp hv
  refine ⟨⟨hl.value, fun h => absurd h hv, fun hd => by simp [hl.stepped hd hv]⟩, ?_⟩
  exact upperCut_covBy_lowerCut.mpr ⟨val x, rfl, rfl, by cases inc <;> decide⟩

theorem UpperOk.flip {v : Option Value} {inc : Bool} (hu : UpperOk desc v inc) (hv : v ≠ none) :
    LowerOk desc v (!inc) ∧ upperCut (v.map val) inc ⋖ lowerCut (v.map val) (!inc) := by
  obtain ⟨x, rfl⟩ := Option.ne_none_iff_exists'.mp hv
  refine ⟨⟨hu.value, fun h => absurd h hv, fun hd _ => by simp [hu.stepped hd]⟩, ?_⟩
  exact upperCut_covBy_lowerCut.mpr ⟨val x, rfl, rfl, by cases inc <;> decide⟩

theorem Reads.minus (h : Reads desc F val) (ha : Canonical desc a) (hb : Canonical desc b) :
    ((denote val a \ denote val b).OrdConnected → ∃ r, rangeMinus a b = .ok r ∧
      Canonical desc r ∧ denote val r = denote val a \ denote val b) ∧
    (¬(denote val a \ denote val b).OrdConnected →
      rangeMinus a b = .error (.error differenceNotContiguous) ∧
      ∃ P Q : Set ι, P.Nonempty ∧ Q.Nonempty ∧ denote val a \ denote val b = P ∪ Q ∧
        ∀ x ∈ P, ∀ y ∈ Q, x < y) := by
  -- A call that returns the difference settles both parts.
  have hsettle : ∀ r, rangeMinus a b = .ok r → Canonical desc r →
      denote val r = denote val a \ denote val b →
      ((denote val a \ denote val b).OrdConnected → ∃ r, rangeMinus a b = .ok r ∧
        Canonical desc r ∧ denote val r = denote val a \ denote val b) ∧
      (¬(denote val a \ denote val b).OrdConnected →
        rangeMinus a b = .error (.error differenceNotContiguous) ∧
        ∃ P Q : Set ι, P.Nonempty ∧ Q.Nonempty ∧ denote val a \ denote val b = P ∪ Q ∧
          ∀ x ∈ P, ∀ y ∈ Q, x < y) := by
    intro r hrun hr hden
    refine ⟨fun _ => ⟨r, hrun, hr, hden⟩, fun hgap => absurd ?_ hgap⟩
    rw [← hden]
    rcases hr.cases h with ⟨-, hd⟩ | ⟨-, hd, -⟩
    · rw [hd]
      exact Set.ordConnected_empty
    · rw [hd]
      exact Frame.between_ordConnected _ _
  rcases ha.cases h with ⟨rfl, hda⟩ | ⟨hae, hda, hal, hau, halt⟩
  · exact hsettle _ (by rw [rangeMinus, if_pos (by simp [emptyRange_empty])]) ha
      (by rw [hda, Set.empty_sdiff])
  · rcases hb.cases h with ⟨rfl, hdb⟩ | ⟨hbe, hdb, hbl, hbu, hblt⟩
    · exact hsettle _ (by rw [rangeMinus, if_pos (by simp [emptyRange_empty])]) ha
        (by rw [hdb, Set.sdiff_empty])
    · rcases h.minus_cases ha hb hae hbe with ⟨hl, hu, hrun⟩ | ⟨hdis, hrun⟩ | ⟨hl, hu, hrun⟩ |
        ⟨hl, hlu, huu, hrun⟩ | ⟨hl, huu, hlu, hrun⟩
      · obtain ⟨hpieces, hP, hQ, hgap⟩ := Frame.sdiff_two_pieces hal hau hbl hbu hblt hl hu
        rw [hda, hdb]
        refine ⟨fun hconn => absurd hconn hgap, fun _ => ⟨hrun, _, _, hP, hQ, hpieces, ?_⟩⟩
        intro x hx y hy
        exact F.strictMono.lt_iff_lt.mp ((hx.2.trans hblt).trans hy.1)
      · exact hsettle _ hrun ha (by rw [hda, hdb, Frame.sdiff_disjoint hdis])
      · exact hsettle _ hrun (canonical_empty desc)
          (by rw [hda, hdb, Frame.sdiff_covered hl hu, denote_empty])
      · have hne : b.lower ≠ none := by
          intro hnone
          rw [lowCut, lowCut, hnone] at hl
          exact absurd hl not_lt_bot
        obtain ⟨hflip, hcov⟩ := @LowerOk.flip ι _ desc val _ _ (hb.lower hbe) hne
        obtain ⟨hcan, hden⟩ := h.makeRange (ha.lower hae) hflip
        exact hsettle _ hrun hcan
          (by rw [hden, hda, hdb, Frame.sdiff_right hbl (h.upper _ _ hflip) hcov hlu huu]; rfl)
      · have hne : b.upper ≠ none := by
          intro hnone
          rw [upCut, upCut, hnone] at huu
          exact absurd huu not_top_lt
        obtain ⟨hflip, hcov⟩ := @UpperOk.flip ι _ desc val _ _ (hb.upper hbe) hne
        obtain ⟨hcan, hden⟩ := h.makeRange hflip (ha.upper hae)
        exact hsettle _ hrun hcan
          (by rw [hden, hda, hdb, Frame.sdiff_left hbu (h.lower _ _ hflip) hcov hlu hl]; rfl)

theorem Reads.setSemantics (h : Reads desc F val) (ha : Canonical desc a) (hb : Canonical desc b) :
    SetSemantics desc val a b where
  containsElem _ he := h.containsElem ha he
  contains := h.contains ha hb
  overlaps := h.overlaps ha hb
  before := h.before ha hb
  overleft := h.overleft ha hb
  overright := h.overright ha hb
  adjacent := h.adjacent ha hb
  intersect := h.intersect ha hb
  union := ⟨h.union_ok ha hb, h.union_error ha hb⟩
  minus := h.minus ha hb

end Semantics

end Jed.Ranges
