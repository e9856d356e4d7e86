import Jed.Codec.PlanLengths

/-!
# The size of a plan

The size of a record's plan is that of its key and of the forms its columns are left in.
-/

namespace Jed.Codec

open Key PMap Results

/-- What a column takes in a form. -/
def formLen (inline tag : ℕ) : PlanDisp → ℕ
  | .inline => inline
  | .inlineComp comp => INLINE_COMP_OVERHEAD + comp.len
  | .external => EXTERNAL_PTR_LEN + tag
  | .externalComp _ => EXTERNAL_COMP_PTR_LEN + tag

/-- The plan counts the key and what each column takes. -/
structure Planning.Sized (keyLen n tag : ℕ) (inline : ℕ → ℕ) (s : Planning) : Prop where
  adds : s.Adds keyLen n
  forms : ∀ j, s.cur j = formLen (inline j) tag (s.disp j)

section Passes

variable {inline payloadLen : ℕ → ℕ} {attempt : ℕ → Except Failure (Option CompBlock)}
  {c max tag n keyLen : ℕ} {s t : Planning}

variable {i : ℕ}

theorem Planning.Sized.attempted (h : s.Sized keyLen n tag inline) (hi : i < n) (units : ℕ)
    (comp : Option CompBlock) : (s.attempted units (inline i) i comp).Sized keyLen n tag inline where
  adds := h.adds.attempted hi _ _ _
  forms := by
    intro j
    unfold Planning.attempted
    cases comp with
    | none => exact h.forms j
    | some comp =>
      dsimp only
      split
      · show Function.update s.cur i _ j = formLen _ tag (Function.update s.disp i _ j)
        by_cases hj : j = i
        · subst hj
          rw [Function.update_self, Function.update_self]
          rfl
        · rw [Function.update_of_ne hj, Function.update_of_ne hj]
          exact h.forms j
      · exact h.forms j

theorem Planning.Sized.externalize (h : s.Sized keyLen n tag inline) (hi : i < n) :
    (s.externalize payloadLen tag i).Sized keyLen n tag inline where
  adds := by
    have hmem := Finset.mem_range.mpr hi
    have hsum := Finset.add_sum_erase _ s.cur hmem
    have hle := h.adds.le hi
    have hadds := h.adds
    rw [Adds] at hadds ⊢
    show s.size - s.cur i + pointerLen tag (s.disp i)
      = keyLen + ∑ j ∈ Finset.range n, Function.update s.cur i (pointerLen tag (s.disp i)) j
    rw [Finset.sum_update_of_mem hmem, Finset.sdiff_singleton_eq_erase]
    omega
  forms := by
    intro j
    rw [externalize_disp]
    show Function.update s.cur i _ j = _
    by_cases hj : j = i
    · subst hj
      rw [Function.update_self, if_pos rfl]
      cases s.disp j <;> rfl
    · rw [Function.update_of_ne hj, if_neg hj]
      exact h.forms j

variable {cand : List ℕ}

theorem compressPass_sized (ht : compressPass inline payloadLen attempt c max cand s = .ok t)
    (h : s.Sized keyLen n tag inline) (hcand : ∀ i ∈ cand, i < n) : t.Sized keyLen n tag inline := by
  induction cand generalizing s with
  | nil =>
    cases ht
    exact h
  | cons i cand ih =>
    by_cases hfits : s.size ≤ max
    · rw [compressPass_done hfits] at ht
      cases ht
      exact h
    · rw [compressPass_cons hfits] at ht
      obtain ⟨comp, -, ht⟩ := bind_eq_ok.mp ht
      exact ih ht (h.attempted (hcand i List.mem_cons_self) _ _)
        fun j hj => hcand j (List.mem_cons_of_mem _ hj)

variable {j : ℕ}

/-- What is not a candidate of pass 1 is left as it was. -/
theorem compressPass_of_notMem (hj : j ∉ cand)
    (ht : compressPass inline payloadLen attempt c max cand s = .ok t) : t.disp j = s.disp j := by
  induction cand generalizing s with
  | nil =>
    cases ht
    rfl
  | cons i cand ih =>
    rw [List.mem_cons, not_or] at hj
    by_cases hfits : s.size ≤ max
    · rw [compressPass_done hfits] at ht
      cases ht
      rfl
    · rw [compressPass_cons hfits] at ht
      obtain ⟨comp, -, ht⟩ := bind_eq_ok.mp ht
      rw [ih hj.2 ht]
      unfold Planning.attempted
      cases comp with
      | none => rfl
      | some comp =>
        dsimp only
        split
        · exact Function.update_of_ne hj.1 _ _
        · rfl

theorem externalizePass_sized (h : s.Sized keyLen n tag inline) (hcand : ∀ i ∈ cand, i < n) :
    (externalizePass payloadLen tag max cand s).Sized keyLen n tag inline := by
  induction cand generalizing s with
  | nil => exact h
  | cons i cand ih =>
    rw [externalizePass]
    split
    · exact h
    · exact ih (h.externalize (hcand i List.mem_cons_self))
        fun j hj => hcand j (List.mem_cons_of_mem _ hj)

theorem externalizePass_keeps_moved (h : s.disp j ≠ .inline) :
    (externalizePass payloadLen tag max cand s).disp j ≠ .inline := by
  induction cand generalizing s with
  | nil => exact h
  | cons i cand ih =>
    rw [externalizePass]
    split
    · exact h
    · apply ih
      rw [Planning.externalize_disp]
      split
      · cases s.disp i <;> exact PlanDisp.noConfusion
      · exact h

/-- A record that is too large after pass 2 has had every candidate moved. -/
theorem externalizePass_moves
    (hbig : ¬(externalizePass payloadLen tag max cand s).size ≤ max) (hi : i ∈ cand) :
    (externalizePass payloadLen tag max cand s).disp i ≠ .inline := by
  induction cand generalizing s with
  | nil => cases hi
  | cons k cand ih =>
    rw [externalizePass] at hbig ⊢
    by_cases hfits : s.size ≤ max
    · rw [if_pos hfits] at hbig
      exact absurd hfits hbig
    · rw [if_neg hfits] at hbig ⊢
      cases List.mem_cons.mp hi with
      | inr hi => exact ih hbig hi
      | inl hi =>
        subst hi
        apply externalizePass_keeps_moved
        rw [Planning.externalize_disp, if_pos rfl]
        cases s.disp i <;> exact PlanDisp.noConfusion

theorem mem_externalizeCandidates {spillable : ℕ → Bool} :
    i ∈ externalizeCandidates n spillable tag s ↔
      i < n ∧ spillable i = true ∧ pointerLen tag (s.disp i) < s.cur i := by
  rw [externalizeCandidates, (List.mergeSort_perm _ _).mem_iff, List.mem_filter, List.mem_range,
    Bool.and_eq_true, decide_eq_true_eq]

variable {spillable : ℕ → Bool} {cap : Cap}

theorem runPasses_sized (ht : runPasses n inline payloadLen spillable attempt cap max s = .ok t)
    (h : s.Sized keyLen n cap.tag inline) : t.Sized keyLen n cap.tag inline := by
  unfold runPasses at ht
  split at ht
  · cases ht
    exact h
  · obtain ⟨s', hpass, ht⟩ := bind_eq_ok.mp ht
    have h' := compressPass_sized hpass h fun i hi => (mem_compressCandidates.mp hi).1
    split at ht
    · cases ht
      exact h'
    · cases ht
      exact externalizePass_sized h' fun i hi => (mem_externalizeCandidates.mp hi).1

/-- A column with nothing to compress and nothing to move stays as it is. -/
theorem runPasses_small (ht : runPasses n inline payloadLen spillable attempt cap max s = .ok t)
    (h : s.Sized keyLen n cap.tag inline) (hj : s.disp j = .inline)
    (hlen : payloadLen j < S_COMPRESS)
    (hmove : spillable j = false ∨ inline j ≤ EXTERNAL_PTR_LEN + cap.tag) : t.disp j = .inline := by
  unfold runPasses at ht
  split at ht
  · cases ht
    exact hj
  · obtain ⟨s', hpass, ht⟩ := bind_eq_ok.mp ht
    have h' := compressPass_sized hpass h fun i hi => (mem_compressCandidates.mp hi).1
    have hj' : s'.disp j = .inline := by
      rw [compressPass_of_notMem ?_ hpass, hj]
      intro hmem
      exact absurd (mem_compressCandidates.mp hmem).2 (not_le.mpr hlen)
    split at ht
    · cases ht
      exact hj'
    · cases ht
      rw [externalizePass_of_notMem ?_, hj']
      intro hmem
      obtain ⟨-, hspill, hlong⟩ := mem_externalizeCandidates.mp hmem
      rw [h'.forms, hj'] at hlong
      cases hmove with
      | inl hno => exact Bool.false_ne_true (hno.symm.trans hspill)
      | inr hshort => exact absurd hlong (not_lt.mpr hshort)

/-- A value left as it is fits the record, or is no longer than its pointer. -/
theorem runPasses_inline (ht : runPasses n inline payloadLen spillable attempt cap max s = .ok t)
    (h : s.Sized keyLen n cap.tag inline) (hj : j < n) (hspill : spillable j = true)
    (hinline : t.disp j = .inline) : inline j ≤ max ∨ inline j ≤ EXTERNAL_PTR_LEN + cap.tag := by
  have hsized := runPasses_sized ht h
  have hcur : t.cur j = inline j := by
    rw [hsized.forms, hinline]
    rfl
  have hfits : t.size ≤ max → inline j ≤ max := by
    intro hle
    have := hsized.adds.le hj
    omega
  unfold runPasses at ht
  split at ht
  · rename_i hle
    cases ht
    exact .inl (hfits hle)
  · obtain ⟨s', hpass, ht⟩ := bind_eq_ok.mp ht
    split at ht
    · rename_i hle
      cases ht
      exact .inl (hfits hle)
    · cases ht
      by_cases hle : (externalizePass payloadLen cap.tag max
          (externalizeCandidates n spillable cap.tag s') s').size ≤ max
      · exact .inl (hfits hle)
      · have hnot : j ∉ externalizeCandidates n spillable cap.tag s' := fun hmem =>
          externalizePass_moves hle hmem hinline
        have h' := compressPass_sized hpass h fun i hi => (mem_compressCandidates.mp hi).1
        rw [externalizePass_of_notMem hnot] at hinline
        right
        by_contra hlong
        apply hnot
        refine mem_externalizeCandidates.mpr ⟨hj, hspill, ?_⟩
        rw [h'.forms, hinline]
        exact not_le.mp hlong

end Passes

end Jed.Codec
