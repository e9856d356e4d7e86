import Jed.Codec.Plan
import Jed.Lib.Results

/-!
# The passes of the plan

The passes ask of an attempt to compress a value whether its block is adopted, and how long it is;
and the form they leave a value in says what came of the attempt.
-/

namespace Jed.Codec

open Key PMap Results

/-- A form, and the length of its block. -/
def PlanDisp.shape : PlanDisp → PlanDisp
  | .inlineComp comp => .inlineComp (.onChain comp.len)
  | .externalComp comp => .externalComp (.onChain comp.len)
  | d => d

def Planning.shape (s : Planning) : Planning := { s with disp := fun i => (s.disp i).shape }

/-- The block an attempt ends with, if it is adopted, by its length. -/
def outcome (inline : ℕ) (a : Except Failure (Option CompBlock)) : Except Failure (Option ℕ) :=
  a.map fun comp => (comp.map CompBlock.len).filter (INLINE_COMP_OVERHEAD + · < inline)

/-- What pass 1 makes of an attempt. -/
def Planning.attempted (s : Planning) (units inline i : ℕ) (comp : Option CompBlock) : Planning :=
  let s := { s with compressUnits := s.compressUnits + units }
  match comp with
  | none => s
  | some comp => if INLINE_COMP_OVERHEAD + comp.len < inline then s.compress i comp else s

theorem pointerLen_shape (tag : ℕ) (d : PlanDisp) : pointerLen tag d.shape = pointerLen tag d := by
  cases d <;> rfl

theorem shape_update (f : ℕ → PlanDisp) (i : ℕ) (d : PlanDisp) :
    (fun j => (Function.update f i d j).shape) = Function.update (fun j => (f j).shape) i d.shape := by
  funext j
  by_cases h : j = i
  · rw [h, Function.update_self, Function.update_self]
  · rw [Function.update_of_ne h, Function.update_of_ne h]

theorem Planning.compress_shape (s : Planning) (i : ℕ) (comp : CompBlock) :
    (s.compress i comp).shape = s.shape.compress i (.onChain comp.len) := by
  unfold compress shape
  simp only [shape_update]
  rfl

theorem Planning.attempted_shape (s : Planning) (units inline i : ℕ) (comp : Option CompBlock) :
    (s.attempted units inline i comp).shape = s.shape.attempted units inline i
      (((comp.map CompBlock.len).filter (INLINE_COMP_OVERHEAD + · < inline)).map .onChain) := by
  unfold attempted
  cases comp with
  | none => rfl
  | some comp =>
    simp only [Option.map_some, Option.filter_some, decide_eq_true_eq]
    by_cases h : INLINE_COMP_OVERHEAD + comp.len < inline
    · rw [if_pos h, if_pos h, compress_shape]
      show _ = ite (INLINE_COMP_OVERHEAD + comp.len < inline) _ _
      rw [if_pos h]
      rfl
    · rw [if_neg h, if_neg h]
      rfl

section Passes

variable {inline payloadLen : ℕ → ℕ} {attempt attempt' : ℕ → Except Failure (Option CompBlock)}
  {c tag max : ℕ}

variable {cand : List ℕ} {s : Planning}

theorem compressPass_done (h : s.size ≤ max) :
    compressPass inline payloadLen attempt c max cand s = .ok s := by
  cases cand with
  | nil => rfl
  | cons i cand => rw [compressPass, if_pos h]

variable {i : ℕ}

theorem compressPass_cons (h : ¬s.size ≤ max) :
    compressPass inline payloadLen attempt c max (i :: cand) s = attempt i >>= fun comp =>
      compressPass inline payloadLen attempt c max cand
        (s.attempted (divCeil (payloadLen i) c) (inline i) i comp) := by
  rw [compressPass, if_neg h]
  cases attempt i with
  | error e => rfl
  | ok comp =>
    unfold Planning.attempted
    cases comp with
    | none => rfl
    | some comp =>
      show ite _ _ _ = compressPass _ _ _ _ _ _ (ite _ _ _)
      split <;> rfl

/-- Pass 1 asks of the attempts which blocks are adopted, and how long they are. -/
theorem compressPass_congr (h : ∀ i ∈ cand, outcome (inline i) (attempt i) = outcome (inline i) (attempt' i))
    {s' : Planning} (hs : s.shape = s'.shape) :
    (compressPass inline payloadLen attempt c max cand s).map Planning.shape
      = (compressPass inline payloadLen attempt' c max cand s').map Planning.shape := by
  induction cand generalizing s s' with
  | nil => exact congrArg Except.ok hs
  | cons i cand ih =>
    have hsize : s.size = s'.size := by
      show s.shape.size = s'.shape.size
      rw [hs]
    by_cases hfits : s.size ≤ max
    · rw [compressPass_done hfits, compressPass_done (hsize ▸ hfits)]
      exact congrArg Except.ok hs
    · rw [compressPass_cons hfits, compressPass_cons (hsize ▸ hfits)]
      have hi := h i List.mem_cons_self
      cases ha : attempt i with
      | error e =>
        rw [ha] at hi
        cases ha' : attempt' i with
        | error e' =>
          rw [ha'] at hi
          cases hi
          rfl
        | ok comp' =>
          rw [ha'] at hi
          cases hi
      | ok comp =>
        rw [ha] at hi
        cases ha' : attempt' i with
        | error e' =>
          rw [ha'] at hi
          cases hi
        | ok comp' =>
          rw [ha'] at hi
          apply ih fun j hj => h j (List.mem_cons_of_mem _ hj)
          rw [Planning.attempted_shape, Planning.attempted_shape, hs]
          exact congrArg (fun o => s'.shape.attempted _ _ _ (o.map .onChain)) (Except.ok.inj hi)

theorem Planning.externalize_shape (s : Planning) (i : ℕ) :
    (s.externalize payloadLen tag i).shape = s.shape.externalize payloadLen tag i := by
  have hdisp : s.shape.disp i = (s.disp i).shape := rfl
  unfold externalize
  rw [hdisp, pointerLen_shape]
  unfold shape
  simp only [shape_update]
  cases s.disp i <;> rfl

theorem externalizePass_shape (cand : List ℕ) (s : Planning) :
    (externalizePass payloadLen tag max cand s).shape
      = externalizePass payloadLen tag max cand s.shape := by
  induction cand generalizing s with
  | nil => rfl
  | cons i cand ih =>
    have hsize : s.shape.size = s.size := rfl
    rw [externalizePass, externalizePass, hsize]
    split
    · rfl
    · rw [ih, Planning.externalize_shape]

theorem externalizeCandidates_shape (n : ℕ) (spillable : ℕ → Bool) (s : Planning) :
    externalizeCandidates n spillable tag s.shape = externalizeCandidates n spillable tag s := by
  have hdisp : ∀ i, s.shape.disp i = (s.disp i).shape := fun _ => rfl
  unfold externalizeCandidates
  simp only [hdisp, pointerLen_shape]
  rfl

variable {n : ℕ} {spillable : ℕ → Bool} {cap : Cap}

/-- So do both passes. -/
theorem runPasses_congr (h : ∀ i ∈ compressCandidates n inline payloadLen,
      outcome (inline i) (attempt i) = outcome (inline i) (attempt' i)) (s : Planning) :
    (runPasses n inline payloadLen spillable attempt cap max s).map Planning.shape
      = (runPasses n inline payloadLen spillable attempt' cap max s).map Planning.shape := by
  unfold runPasses
  split
  · rfl
  · have hpass : (compressPass inline payloadLen attempt cap.c max _ s).map Planning.shape
        = (compressPass inline payloadLen attempt' cap.c max _ s).map Planning.shape :=
      compressPass_congr h rfl
    cases h₁ : compressPass inline payloadLen attempt cap.c max
        (compressCandidates n inline payloadLen) s with
    | error e =>
      rw [h₁] at hpass
      cases h₂ : compressPass inline payloadLen attempt' cap.c max
          (compressCandidates n inline payloadLen) s with
      | error e' =>
        rw [h₂] at hpass
        cases hpass
        rfl
      | ok s₂ =>
        rw [h₂] at hpass
        cases hpass
    | ok s₁ =>
      rw [h₁] at hpass
      cases h₂ : compressPass inline payloadLen attempt' cap.c max
          (compressCandidates n inline payloadLen) s with
      | error e' =>
        rw [h₂] at hpass
        cases hpass
      | ok s₂ =>
        rw [h₂] at hpass
        have hs : s₁.shape = s₂.shape := Except.ok.inj hpass
        have hsize : s₁.size = s₂.size := by
          show s₁.shape.size = s₂.shape.size
          rw [hs]
        show Except.map _ (ite (s₁.size ≤ max) _ _) = Except.map _ (ite (s₂.size ≤ max) _ _)
        rw [← hsize]
        split
        · exact congrArg Except.ok hs
        · show Except.ok _ = Except.ok _
          rw [externalizePass_shape, externalizePass_shape, ← externalizeCandidates_shape n spillable s₁,
            ← externalizeCandidates_shape n spillable s₂, hs]

/-- A column after pass 1: as it was, or compressed to a block that was adopted. -/
def Tried (inline : ℕ → ℕ) (attempt : ℕ → Except Failure (Option CompBlock)) (i : ℕ) (d : PlanDisp) :
    Prop :=
  d = .inline ∨ ∃ comp, d = .inlineComp comp ∧ attempt i = .ok (some comp) ∧
    INLINE_COMP_OVERHEAD + comp.len < inline i

theorem Planning.attempted_disp (units : ℕ) {comp : Option CompBlock}
    (hcomp : attempt i = .ok comp) (h : ∀ j, Tried inline attempt j (s.disp j)) (j : ℕ) :
    Tried inline attempt j ((s.attempted units (inline i) i comp).disp j) ∧
      (s.disp j ≠ .inline → (s.attempted units (inline i) i comp).disp j ≠ .inline) := by
  unfold attempted
  cases comp with
  | none => exact ⟨h j, id⟩
  | some comp =>
    dsimp only
    split
    · rename_i hshort
      show Tried _ _ _ (Function.update s.disp i _ j) ∧ (_ → Function.update s.disp i _ j ≠ _)
      by_cases hj : j = i
      · rw [hj, Function.update_self]
        exact ⟨.inr ⟨comp, rfl, hcomp, hshort⟩, fun _ => PlanDisp.noConfusion⟩
      · rw [Function.update_of_ne hj]
        exact ⟨h j, id⟩
    · exact ⟨h j, id⟩

/-- Pass 1 compresses to adopted blocks only. A candidate that it has left as it was, though the
    record is still too large, was tried and its block rejected. -/
theorem compressPass_disp {t : Planning} (ht : compressPass inline payloadLen attempt c max cand s = .ok t)
    (h : ∀ j, Tried inline attempt j (s.disp j)) :
    (∀ j, Tried inline attempt j (t.disp j)) ∧ (∀ j, s.disp j ≠ .inline → t.disp j ≠ .inline) ∧
      (¬t.size ≤ max → ∀ i ∈ cand, t.disp i = .inline → outcome (inline i) (attempt i) = .ok none) := by
  induction cand generalizing s with
  | nil =>
    cases ht
    exact ⟨h, fun _ => id, fun _ i hi => nomatch hi⟩
  | cons i cand ih =>
    by_cases hfits : s.size ≤ max
    · rw [compressPass_done hfits] at ht
      cases ht
      exact ⟨h, fun _ => id, fun hbig => absurd hfits hbig⟩
    · rw [compressPass_cons hfits] at ht
      obtain ⟨comp, hcomp, ht⟩ := bind_eq_ok.mp ht
      have hstep := Planning.attempted_disp (divCeil (payloadLen i) c) hcomp h
      obtain ⟨htried, hkeep, hrejected⟩ := ih ht fun j => (hstep j).1
      refine ⟨htried, fun j hj => hkeep j ((hstep j).2 hj), fun hbig j hj hinline => ?_⟩
      cases List.mem_cons.mp hj with
      | inr hj => exact hrejected hbig j hj hinline
      | inl hj =>
        subst hj
        have hleft : (s.attempted (divCeil (payloadLen j) c) (inline j) j comp).disp j = .inline :=
          by_contra fun hne => hkeep j hne hinline
        rw [hcomp]
        cases comp with
        | none => rfl
        | some comp =>
          have hlong : ¬INLINE_COMP_OVERHEAD + comp.len < inline j := by
            intro hshort
            unfold Planning.attempted at hleft
            dsimp only at hleft
            rw [if_pos hshort] at hleft
            change Function.update s.disp j (.inlineComp comp) j = _ at hleft
            rw [Function.update_self] at hleft
            cases hleft
          show Except.ok ((some comp.len).filter _) = _
          rw [Option.filter_some, if_neg (by rwa [decide_eq_true_eq])]

/-- The form of a value that leaves its record. -/
def PlanDisp.moved : PlanDisp → PlanDisp
  | .inlineComp comp => .externalComp comp
  | _ => .external

theorem Planning.externalize_disp (s : Planning) (i j : ℕ) :
    (s.externalize payloadLen tag i).disp j = if j = i then (s.disp i).moved else s.disp j := by
  unfold externalize
  show Function.update s.disp i _ j = _
  by_cases hj : j = i
  · rw [if_pos hj, hj, Function.update_self]
    cases s.disp i <;> rfl
  · rw [if_neg hj, Function.update_of_ne hj]

theorem externalizePass_of_notMem {j : ℕ} (hj : j ∉ cand) (s : Planning) :
    (externalizePass payloadLen tag max cand s).disp j = s.disp j := by
  induction cand generalizing s with
  | nil => rfl
  | cons i cand ih =>
    rw [List.mem_cons, not_or] at hj
    rw [externalizePass]
    split
    · rfl
    · rw [ih hj.2, Planning.externalize_disp, if_neg hj.1]

/-- Pass 2 moves a candidate at most once. -/
theorem externalizePass_disp (hnodup : cand.Nodup) (s : Planning) (j : ℕ) :
    (externalizePass payloadLen tag max cand s).disp j = s.disp j ∨
      (externalizePass payloadLen tag max cand s).disp j = (s.disp j).moved := by
  induction cand generalizing s with
  | nil => exact .inl rfl
  | cons i cand ih =>
    have hmem := List.nodup_cons.mp hnodup
    rw [externalizePass]
    split
    · exact .inl rfl
    · by_cases hj : j = i
      · subst hj
        right
        rw [externalizePass_of_notMem hmem.1, Planning.externalize_disp, if_pos rfl]
      · have := ih hmem.2 (s.externalize payloadLen tag i)
        rwa [Planning.externalize_disp, if_neg hj] at this

/-- What the form of a column says of the attempt to compress it. -/
def Tells (inline payloadLen : ℕ → ℕ) (attempt : ℕ → Except Failure (Option CompBlock)) (i : ℕ) :
    PlanDisp → Prop
  | .inline => True
  | .external => S_COMPRESS ≤ payloadLen i → outcome (inline i) (attempt i) = .ok none
  | .inlineComp comp | .externalComp comp =>
    attempt i = .ok (some comp) ∧ INLINE_COMP_OVERHEAD + comp.len < inline i

theorem mem_compressCandidates :
    i ∈ compressCandidates n inline payloadLen ↔ i < n ∧ S_COMPRESS ≤ payloadLen i := by
  rw [compressCandidates, (List.mergeSort_perm _ _).mem_iff, List.mem_filter, List.mem_range,
    decide_eq_true_eq]

/-- A plan says it of every column. -/
theorem runPasses_tells {t : Planning}
    (ht : runPasses n inline payloadLen spillable attempt cap max s = .ok t)
    (hstart : ∀ j, s.disp j = .inline) {j : ℕ} (hj : j < n) :
    Tells inline payloadLen attempt j (t.disp j) := by
  have htried : ∀ {d}, Tried inline attempt j d → Tells inline payloadLen attempt j d := by
    rintro d (rfl | ⟨comp, rfl, hcomp⟩)
    · trivial
    · exact hcomp
  unfold runPasses at ht
  split at ht
  · cases ht
    rw [hstart]
    trivial
  · obtain ⟨s', hpass, ht⟩ := bind_eq_ok.mp ht
    have hdisp := compressPass_disp hpass fun j => .inl (hstart j)
    split at ht
    · cases ht
      exact htried (hdisp.1 j)
    · rename_i hbig
      cases ht
      have hnodup : (externalizeCandidates n spillable cap.tag s').Nodup :=
        (List.mergeSort_perm _ _).nodup_iff.mpr (List.nodup_range.filter _)
      have hmove : (externalizePass payloadLen cap.tag max _ s').disp j = s'.disp j ∨
          (externalizePass payloadLen cap.tag max _ s').disp j = (s'.disp j).moved :=
        externalizePass_disp hnodup s' j
      cases hmove with
      | inl hsame =>
        rw [hsame]
        exact htried (hdisp.1 j)
      | inr hmoved =>
        rw [hmoved]
        cases hdisp.1 j with
        | inl hinline =>
          rw [hinline]
          exact fun hlarge => hdisp.2.2 hbig j (mem_compressCandidates.mpr ⟨hj, hlarge⟩) hinline
        | inr hcomp =>
          obtain ⟨comp, hcomp, hadopted⟩ := hcomp
          rw [hcomp]
          exact hadopted

end Passes

end Jed.Codec
