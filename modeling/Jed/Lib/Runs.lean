import Mathlib.Data.List.Basic
import Mathlib.Tactic.Common

/-!
# Runs of a partial step function

A step function that is undefined where an action is not enabled, its runs over lists of actions,
and the rule by which an invariant of the step is an invariant of every run.
-/

namespace Runs

variable {σ α : Type} (step : σ → α → Option σ)

/-- The state after a list of actions, if each was enabled in its turn. -/
def run (s : σ) : List α → Option σ
  | [] => some s
  | a :: as => (step s a).bind (fun s => run s as)

variable {step}

variable {s s' : σ} {as : List α} {a : α}

theorem run_cons :
    run step s (a :: as) = some s' ↔ ∃ s₁, step s a = some s₁ ∧ run step s₁ as = some s' :=
  Option.bind_eq_some_iff

theorem run_append {bs : List α} :
    run step s (as ++ bs) = some s' ↔ ∃ s₁, run step s as = some s₁ ∧ run step s₁ bs = some s' := by
  induction as generalizing s with
  | nil => simp [run]
  | cons a as ih =>
    rw [List.cons_append, run_cons]
    constructor
    · rintro ⟨s₁, h1, h2⟩
      obtain ⟨s₂, h2, h3⟩ := ih.mp h2
      exact ⟨s₂, run_cons.mpr ⟨s₁, h1, h2⟩, h3⟩
    · rintro ⟨s₂, h1, h3⟩
      obtain ⟨s₁, h1, h2⟩ := run_cons.mp h1
      exact ⟨s₁, h1, ih.mpr ⟨s₂, h2, h3⟩⟩

theorem run_snoc :
    run step s (as ++ [a]) = some s' ↔ ∃ s₁, run step s as = some s₁ ∧ step s₁ a = some s' := by
  rw [run_append]
  refine exists_congr fun s₁ => and_congr_right fun _ => ?_
  rw [run_cons]
  constructor
  · rintro ⟨s₂, h1, h2⟩
    obtain rfl := Option.some.inj h2
    exact h1
  · exact fun h => ⟨s', h, rfl⟩

/-- What every step keeps, every run keeps. -/
theorem run_invariant {P : σ → Prop} (hstep : ∀ s a s', P s → step s a = some s' → P s')
    : ∀ {s s' : σ}, P s → run step s as = some s' → P s' := by
  induction as with
  | nil =>
    intro s s' hs hrun
    obtain rfl := Option.some.inj hrun
    exact hs
  | cons a as ih =>
    intro s s' hs hrun
    obtain ⟨s₁, h1, h2⟩ := run_cons.mp hrun
    exact ih (hstep s a s₁ hs h1) h2

variable (step)

/-- Every step of the run meets `G` in the state before it. -/
def Meets (G : σ → α → Prop) (s : σ) : List α → Prop
  | [] => True
  | a :: as => G s a ∧ ∀ s₁, step s a = some s₁ → Meets G s₁ as

variable {step}

theorem Meets.nil {G : σ → α → Prop} : Meets step G s [] := trivial

theorem Meets.cons {G : σ → α → Prop} {s s₁ : σ} {a : α} {as : List α} (ha : G s a)
    (h : step s a = some s₁) (has : Meets step G s₁ as) : Meets step G s (a :: as) := by
  refine ⟨ha, fun s₂ h₂ => ?_⟩
  obtain rfl := Option.some.inj (h.symm.trans h₂)
  exact has

/-- What every step that meets `G` keeps, every run of such steps keeps. -/
theorem run_invariant_meets {G : σ → α → Prop} {P : σ → Prop}
    (hstep : ∀ s a s', P s → G s a → step s a = some s' → P s') :
    ∀ {s s' : σ}, P s → Meets step G s as → run step s as = some s' → P s' := by
  induction as with
  | nil =>
    intro s s' hs _ hrun
    obtain rfl := Option.some.inj hrun
    exact hs
  | cons a as ih =>
    intro s s' hs hmeets hrun
    obtain ⟨s₁, h1, h2⟩ := run_cons.mp hrun
    exact ih (hstep s a s₁ hs hmeets.1 h1) (hmeets.2 s₁ h1) h2

theorem Meets.of_prefix {G : σ → α → Prop} {p as : List α} (h : Meets step G s as) (hp : p <+: as) :
    Meets step G s p := by
  induction p generalizing s as with
  | nil => exact .nil
  | cons a p ih =>
    obtain ⟨as, rfl⟩ := hp
    exact ⟨h.1, fun s₁ h₁ => ih (h.2 s₁ h₁) (List.prefix_append p as)⟩

end Runs
