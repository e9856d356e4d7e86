import Mathlib.Data.List.Basic

/-!
# Folds over intervals

A fold over the positions of an interval, and the same fold with a memo beside it.
-/

namespace Jed.Positions

variable {ε σ μ β : Type}

/-- The positions from `lo` up to `hi`. -/
def between (lo hi : Nat) : List Nat := List.range' lo (hi - lo)

/-- `f` folded over the positions from `lo` up to `hi`. -/
def foldRange (f : σ → Nat → Except ε σ) (acc : σ) (lo hi : Nat) : Except ε σ :=
  (between lo hi).foldlM f acc

theorem between_of_le {lo hi : ℕ} (h : hi ≤ lo) : between lo hi = [] := by
  rw [between, Nat.sub_eq_zero_of_le h, List.range'_zero]

theorem between_append {lo mid hi : ℕ} (hlo : lo ≤ mid) (hhi : mid ≤ hi) :
    between lo hi = between lo mid ++ between mid hi := by
  have hmid : lo + 1 * (mid - lo) = mid := by omega
  have hlen : hi - lo = (mid - lo) + (hi - mid) := by omega
  rw [between, between, between, hlen, ← List.range'_append, hmid]

theorem mem_between {lo hi k : ℕ} : k ∈ between lo hi ↔ lo ≤ k ∧ k < hi := by
  rw [between, List.mem_range'_1]
  omega

theorem length_between (lo hi : ℕ) : (between lo hi).length = hi - lo := List.length_range'

theorem foldRange_of_le (f : σ → ℕ → Except ε σ) (acc : σ) {lo hi : ℕ} (h : hi ≤ lo) :
    foldRange f acc lo hi = .ok acc := by
  rw [foldRange, between_of_le h]
  rfl

theorem foldRange_append (f : σ → ℕ → Except ε σ) (acc : σ) {lo mid hi : ℕ} (hlo : lo ≤ mid)
    (hhi : mid ≤ hi) :
    foldRange f acc lo hi = (foldRange f acc lo mid).bind fun acc => foldRange f acc mid hi := by
  rw [foldRange, between_append hlo hhi, List.foldlM_append]
  rfl

/-- Where every position gives the same, so do they all. -/
theorem mapM_same {l : List β} {f : β → Except ε σ} {r : Except ε σ} (hl : l ≠ [])
    (h : ∀ x ∈ l, f x = r) : l.mapM f = r.map (List.replicate l.length) := by
  induction l with
  | nil => exact absurd rfl hl
  | cons x l ih =>
    rw [List.mapM_cons, h x List.mem_cons_self]
    cases r with
    | error e => rfl
    | ok s =>
      cases l with
      | nil => rfl
      | cons y l =>
        have hrest := ih (List.cons_ne_nil _ _) fun z hz => h z (List.mem_cons_of_mem _ hz)
        simp only [bind, Except.bind, hrest]
        rfl

/-- A run with a memo gives what the run without it gives, and its memo holds. -/
def Tracks (Q : μ → Prop) (r : Except ε (σ × μ)) (p : Except ε σ) : Prop :=
  match p with
  | .error e => r = .error e
  | .ok s => ∃ m, Q m ∧ r = .ok (s, m)

variable {Q : μ → Prop}

theorem Tracks.ok {s : σ} {m : μ} (h : Q m) : Tracks (ε := ε) Q (.ok (s, m)) (.ok s) := ⟨m, h, rfl⟩

theorem Tracks.of_memo {m : μ} (h : Q m) (p : Except ε σ) :
    Tracks Q (p.bind fun s => .ok (s, m)) p := by
  cases p with
  | error e => rfl
  | ok s => exact .ok h

theorem Tracks.bind {τ : Type} {r : Except ε (σ × μ)} {p : Except ε σ} {g : σ × μ → Except ε (τ × μ)}
    {f : σ → Except ε τ} (h : Tracks Q r p) (hnext : ∀ s m, Q m → Tracks Q (g (s, m)) (f s)) :
    Tracks Q (r.bind g) (p.bind f) := by
  cases p with
  | error e =>
    have hr : r = .error e := h
    subst hr
    exact rfl
  | ok s =>
    obtain ⟨m, hm, rfl⟩ := h
    exact hnext s m hm

theorem Tracks.foldlM {g : σ × μ → ℕ → Except ε (σ × μ)} {f : σ → ℕ → Except ε σ} {ks : List ℕ}
    (hstep : ∀ s m, Q m → ∀ k ∈ ks, Tracks Q (g (s, m) k) (f s k)) :
    ∀ {s : σ} {m : μ}, Q m → Tracks Q (ks.foldlM g (s, m)) (ks.foldlM f s) := by
  induction ks with
  | nil => exact fun hm => .ok hm
  | cons k ks ih =>
    intro s m hm
    rw [List.foldlM_cons, List.foldlM_cons]
    exact (hstep s m hm k List.mem_cons_self).bind fun s m hm =>
      ih (fun s m hm j hj => hstep s m hm j (List.mem_cons_of_mem _ hj)) hm

end Jed.Positions
