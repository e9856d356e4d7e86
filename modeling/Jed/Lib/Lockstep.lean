import Mathlib.Algebra.Group.Defs
import Mathlib.Tactic.Common

/-!
# Runs in lockstep

Programs that end in a value or an error and in a state either way, and two of them that give the same
from related states and leave related states.
-/

namespace Jed.Runs

/-- A program over states `σ` with errors `ε`. -/
def Run (σ ε α : Type) : Type := σ → Except ε α × σ

variable {σ τ σ' τ' ε α β : Type}

namespace Run

def pure (a : α) : Run σ ε α := fun s => (.ok a, s)

def bind (x : Run σ ε α) (f : α → Run σ ε β) : Run σ ε β := fun s =>
  match x s with
  | (.ok a, s') => f a s'
  | (.error e, s') => (.error e, s')

def throw (e : ε) : Run σ ε α := fun s => (.error e, s)

/-- What a program gives, its error as a value. -/
def observe (x : Run σ ε α) : Run σ ε (Except ε α) := fun s => (.ok (x s).1, (x s).2)

/-- A result, from no state. -/
def ofExcept (r : Except ε α) : Run σ ε α := fun s => (r, s)

end Run

instance : Monad (Run σ ε) where
  pure := Run.pure
  bind := Run.bind

variable {x : Run σ ε α} {f : α → Run σ ε β} {s s' : σ}

theorem bind_ok {a : α} (h : x s = (.ok a, s')) :
    (x >>= f) s = f a s' := by
  change Run.bind x f s = _
  rw [Run.bind, h]

theorem bind_error {e : ε} (h : x s = (.error e, s')) : (x >>= f) s = (.error e, s') := by
  change Run.bind x f s = _
  rw [Run.bind, h]

theorem bind_eq_ok {s'' : σ} {b : β}
    (h : (x >>= f) s = (.ok b, s'')) : ∃ a s', x s = (.ok a, s') ∧ f a s' = (.ok b, s'') := by
  change Run.bind x f s = _ at h
  rw [Run.bind] at h
  split at h
  next a s' hx => exact ⟨a, s', hx, h⟩
  next => cases h

/-- From related states the programs give the same and leave related states. -/
def Lockstep (R : σ → τ → Prop) (x : Run σ ε α) (y : Run τ ε α) : Prop :=
  ∀ s t, R s t → (x s).1 = (y t).1 ∧ R (x s).2 (y t).2

variable {R : σ → τ → Prop}

/-- Programs that go on from what two runs gave and left. -/
theorem bind_lockstep {y : Run τ ε α} {g : α → Run τ ε β}
    {t : τ} (h : (x s).1 = (y t).1 ∧ R (x s).2 (y t).2)
    (hrest : ∀ a, Lockstep R (f a) (g a)) :
    ((x >>= f) s).1 = ((y >>= g) t).1 ∧ R ((x >>= f) s).2 ((y >>= g) t).2 := by
  obtain ⟨hvalue, hstate⟩ := h
  cases hx : x s with
  | mk r s' =>
    cases hy : y t with
    | mk r' t' =>
      rw [hx, hy] at hvalue hstate
      cases hvalue
      cases r with
      | ok a =>
        rw [bind_ok hx, bind_ok hy]
        exact hrest a s' t' hstate
      | error e =>
        rw [bind_error hx, bind_error hy]
        exact ⟨rfl, hstate⟩

namespace Lockstep

theorem pure (a : α) : Lockstep R (Pure.pure a : Run σ ε α) (Pure.pure a) := fun _ _ h => ⟨rfl, h⟩

theorem ofExcept (r : Except ε α) : Lockstep R (Run.ofExcept r) (Run.ofExcept r) :=
  fun _ _ h => ⟨rfl, h⟩

variable {x : Run σ ε α} {y : Run τ ε α} {f : α → Run σ ε β} {g : α → Run τ ε β}

theorem bind (h : Lockstep R x y) (hrest : ∀ a, Lockstep R (f a) (g a)) :
    Lockstep R (x >>= f) (y >>= g) := fun s t hst => bind_lockstep (h s t hst) hrest

theorem ofExcept_bind {r : Except ε α} (h : ∀ a, r = .ok a → Lockstep R (f a) (g a)) :
    Lockstep R (Run.ofExcept r >>= f) (Run.ofExcept r >>= g) := by
  intro s t hst
  cases hr : r with
  | error e => exact ⟨rfl, hst⟩
  | ok a => exact h a hr s t hst

theorem observe (h : Lockstep R x y) :
    Lockstep R x.observe y.observe := by
  intro s t hst
  obtain ⟨hvalue, hstate⟩ := h s t hst
  exact ⟨congrArg Except.ok hvalue, hstate⟩

theorem ite {c : Bool} {x' : Run σ ε α} {y' : Run τ ε α} (h : Lockstep R x y)
    (h' : Lockstep R x' y') : Lockstep R (if c then x else x') (if c then y else y') := by
  cases c with
  | true => exact h
  | false => exact h'

end Lockstep

section Spends

/-! ## What a run spends

Runs that keep a property of the state and move a meter of it forward, by an amount of which one thing
is known when the run ends in a value and another when it ends in an error. -/

variable {σ ε α β M : Type} [AddMonoid M]

/-- From every state with `I` the run keeps `I`, and the meter `μ` moves by an amount in `A`; a run that
    fails ends in a state with `J`, its meter moved by an amount in `E`. -/
def Spends (I : σ → Prop) (J : ε → σ → Prop) (μ : σ → M) (x : Run σ ε α) (A E : M → Prop) : Prop :=
  ∀ s, I s →
    match x s with
    | (.ok _, s') => I s' ∧ ∃ d, μ s' = μ s + d ∧ A d
    | (.error e, s') => J e s' ∧ ∃ d, μ s' = μ s + d ∧ E d

namespace Spends

variable {I : σ → Prop} {J : ε → σ → Prop} {μ : σ → M} {A A' B C E E' F G : M → Prop}
variable {x : Run σ ε α} {f : α → Run σ ε β}

theorem of_ok {s s' : σ} {a : α} (h : Spends I J μ x A E) (hs : I s) (hx : x s = (.ok a, s')) :
    I s' ∧ ∃ d, μ s' = μ s + d ∧ A d := by
  have hrun := h s hs
  rw [hx] at hrun
  exact hrun

theorem of_error {s s' : σ} {e : ε} (h : Spends I J μ x A E) (hs : I s)
    (hx : x s = (.error e, s')) : J e s' ∧ ∃ d, μ s' = μ s + d ∧ E d := by
  have hrun := h s hs
  rw [hx] at hrun
  exact hrun

/-- A run whose amounts are known in weaker terms. -/
theorem weaken (h : Spends I J μ x A E) (hA : ∀ d, A d → A' d) (hE : ∀ d, E d → E' d) :
    Spends I J μ x A' E' := by
  intro s hs
  have hrun := h s hs
  cases hx : x s with
  | mk r s' =>
    rw [hx] at hrun
    cases r with
    | ok a =>
      obtain ⟨hs', d, hd, hAd⟩ := hrun
      exact ⟨hs', d, hd, hA d hAd⟩
    | error e =>
      obtain ⟨hs', d, hd, hEd⟩ := hrun
      exact ⟨hs', d, hd, hE d hEd⟩

/-- Two runs one after the other: the amounts add up, and the second is reached with the first's
    amount spent. -/
theorem bind (hx : Spends I J μ x A E) (hf : ∀ a, Spends I J μ (f a) B F)
    (hok : ∀ d d', A d → B d' → C (d + d')) (hleft : ∀ d, E d → G d)
    (hright : ∀ d d', A d → F d' → G (d + d')) : Spends I J μ (x >>= f) C G := by
  intro s hs
  cases h : x s with
  | mk r s₁ =>
    cases r with
    | error e =>
      obtain ⟨hs₁, d, hd, hE⟩ := hx.of_error hs h
      rw [bind_error h]
      exact ⟨hs₁, d, hd, hleft d hE⟩
    | ok a =>
      obtain ⟨hs₁, d, hd, hA⟩ := hx.of_ok hs h
      rw [bind_ok h]
      cases h' : f a s₁ with
      | mk r' s₂ =>
        cases r' with
        | error e =>
          obtain ⟨hs₂, d', hd', hF⟩ := (hf a).of_error hs₁ h'
          exact ⟨hs₂, d + d', by rw [hd', hd, add_assoc], hright d d' hA hF⟩
        | ok b =>
          obtain ⟨hs₂, d', hd', hB⟩ := (hf a).of_ok hs₁ h'
          exact ⟨hs₂, d + d', by rw [hd', hd, add_assoc], hok d d' hA hB⟩

end Spends

end Spends

end Jed.Runs
