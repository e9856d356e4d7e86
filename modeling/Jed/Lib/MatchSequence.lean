import Mathlib.Data.Nat.Notation
import Mathlib.Tactic.Common

/-!
# Sequences of matches

The matches that a search finds one after the other, each from the end of the one before it, or past it
when that one is empty.
-/

namespace Jed.MatchSequence

variable {γ : Type} (find : ℕ → Option γ) (span : γ → ℕ × ℕ) (len : ℕ)

/-- Where the next search starts. -/
def advance (m : ℕ × ℕ) : ℕ := if m.2 > m.1 then m.2 else m.2 + 1

/-- The matches found from a position on. -/
inductive Walk : ℕ → List γ → Prop
  | past {pos : ℕ} : len < pos → Walk pos []
  | none {pos : ℕ} : pos ≤ len → find pos = none → Walk pos []
  | more {pos : ℕ} {m : γ} {ms : List γ} : pos ≤ len → find pos = some m →
      Walk (advance (span m)) ms → Walk pos (m :: ms)

/-- The matches from a position on, `fuel` of them at most. -/
def walkFrom : ℕ → ℕ → List γ
  | 0, _ => []
  | fuel + 1, pos =>
    if pos ≤ len then
      match find pos with
      | none => []
      | some m => m :: walkFrom fuel (advance (span m))
    else []

/-- A match lies between where its search starts and the end. -/
def Finds : Prop :=
  ∀ pos m, pos ≤ len → find pos = some m →
    pos ≤ (span m).1 ∧ (span m).1 ≤ (span m).2 ∧ (span m).2 ≤ len

variable {find span len}

theorem le_advance (m : ℕ × ℕ) : m.2 ≤ advance m := by
  rw [advance]
  split <;> omega

theorem lt_advance {m : ℕ × ℕ} (h : m.1 ≤ m.2) : m.1 < advance m := by
  rw [advance]
  split <;> omega

theorem advance_le (m : ℕ × ℕ) : advance m ≤ m.2 + 1 := by
  rw [advance]
  split <;> omega

/-- The walk ends: each match moves the search forward. -/
theorem walk_walkFrom (h : Finds find span len) (fuel pos : ℕ) (hfuel : len + 1 ≤ pos + fuel) :
    Walk find span len pos (walkFrom find span len fuel pos) := by
  induction fuel generalizing pos with
  | zero => exact Walk.past (by omega)
  | succ fuel ih =>
    rw [walkFrom]
    by_cases hpos : pos ≤ len
    · rw [if_pos hpos]
      cases hm : find pos with
      | none => exact Walk.none hpos hm
      | some m =>
        obtain ⟨hle, hspan, -⟩ := h pos m hpos hm
        have hgo := lt_advance hspan
        exact Walk.more hpos hm (ih _ (by omega))
    · rw [if_neg hpos]
      exact Walk.past (Nat.lt_of_not_le hpos)

namespace Walk

variable {pos : ℕ} {ms : List γ}

theorem unique {ms' : List γ} (h : Walk find span len pos ms) (h' : Walk find span len pos ms') :
    ms = ms' := by
  induction h generalizing ms' with
  | past hpos =>
    cases h' with
    | past => rfl
    | none => rfl
    | more hle => omega
  | none hpos hfind =>
    cases h' with
    | past => rfl
    | none => rfl
    | more _ hm => rw [hfind] at hm; cases hm
  | more hpos hm _ ih =>
    cases h' with
    | past hlt => omega
    | none _ hfind => rw [hfind] at hm; cases hm
    | more _ hm' hrest =>
      rw [hm] at hm'
      cases hm'
      rw [ih hrest]

/-- The matches lie between the position and the end. -/
theorem bounds (hfind : Finds find span len) (h : Walk find span len pos ms) {m : γ} (hm : m ∈ ms) :
    pos ≤ (span m).1 ∧ (span m).1 ≤ (span m).2 ∧ (span m).2 ≤ len := by
  induction h with
  | past => cases hm
  | none => cases hm
  | more hpos hfound _ ih =>
    obtain ⟨hle, hspan, hlen⟩ := hfind _ _ hpos hfound
    rcases List.mem_cons.1 hm with rfl | hm
    · exact ⟨hle, hspan, hlen⟩
    · obtain ⟨hle', hrest⟩ := ih hm
      have hgo := lt_advance hspan
      exact ⟨by omega, hrest⟩

/-- The matches ascend and do not overlap. -/
theorem ascending (hfind : Finds find span len) (h : Walk find span len pos ms) :
    ms.Pairwise fun a b => (span a).2 ≤ (span b).1 ∧ (span a).1 < (span b).1 := by
  induction h with
  | past => exact .nil
  | none => exact .nil
  | more hpos hfound hrest ih =>
    refine .cons (fun b hb => ?_) ih
    obtain ⟨-, hspan, -⟩ := hfind _ _ hpos hfound
    obtain ⟨hle, -⟩ := hrest.bounds hfind hb
    exact ⟨Nat.le_trans (le_advance _) hle, Nat.lt_of_lt_of_le (lt_advance hspan) hle⟩

/-- There is a match at a position once at most. -/
theorem length_le (hfind : Finds find span len) (h : Walk find span len pos ms) :
    ms.length ≤ len + 1 - pos := by
  induction h with
  | past => exact Nat.zero_le _
  | none => exact Nat.zero_le _
  | more hpos hfound _ ih =>
    obtain ⟨hle, hspan, -⟩ := hfind _ _ hpos hfound
    have hgo := lt_advance hspan
    rw [List.length_cons]
    omega

end Walk

end Jed.MatchSequence
