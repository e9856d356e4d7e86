import Mathlib.Data.List.Forall2

/-!
# Computations that may fail

What a computation in `Except` that succeeds has computed.
-/

namespace Results

variable {ε α β : Type}

theorem bind_eq_ok {x : Except ε α} {f : α → Except ε β} {b : β} :
    (x >>= f) = .ok b ↔ ∃ a, x = .ok a ∧ f a = .ok b := by
  cases x with
  | error e =>
    constructor
    · intro h
      cases h
    · rintro ⟨_, h, _⟩
      cases h
  | ok a =>
    constructor
    · exact fun h => ⟨a, rfl, h⟩
    · rintro ⟨_, h, hf⟩
      cases h
      exact hf

theorem pure_eq_ok {a b : α} : (pure a : Except ε α) = .ok b ↔ a = b :=
  ⟨fun h => by cases h; rfl, fun h => by rw [h]; rfl⟩

theorem map_eq_ok {x : Except ε α} {f : α → β} {b : β} :
    x.map f = .ok b ↔ ∃ a, x = .ok a ∧ f a = b := by
  cases x with
  | error e =>
    constructor
    · intro h
      cases h
    · rintro ⟨_, h, _⟩
      cases h
  | ok a =>
    constructor
    · intro h
      cases h
      exact ⟨a, rfl, rfl⟩
    · rintro ⟨_, h, hf⟩
      cases h
      exact congrArg Except.ok hf

theorem check_then_ok {c : Prop} [hc : Decidable c] {x : Except ε Unit} {y : Except ε β} {b : β}
    (h : (if c then x >>= fun _ => y else y) = .ok b) : (c → x = .ok ()) ∧ y = .ok b := by
  split at h
  case isTrue =>
    obtain ⟨_, hx, hy⟩ := bind_eq_ok.1 h
    exact ⟨fun _ => hx, hy⟩
  case isFalse hno => exact ⟨fun hyes => absurd hyes hno, h⟩

theorem forall₂_of_mapM {f : α → Except ε β} :
    ∀ {l : List α} {l' : List β}, l.mapM f = .ok l' → List.Forall₂ (fun a b => f a = .ok b) l l'
  | [], l', h => by
    cases h
    exact .nil
  | a :: l, l', h => by
    simp only [List.mapM_cons, bind_eq_ok, pure_eq_ok] at h
    obtain ⟨b, ha, l', hl, rfl⟩ := h
    exact .cons ha (forall₂_of_mapM hl)

/-- The results are those of the elements. -/
theorem mem_of_forall₂ {R : α → β → Prop} {l : List α} {l' : List β} (h : List.Forall₂ R l l') :
    (∀ y ∈ l', ∃ x ∈ l, R x y) ∧ ∀ x ∈ l, ∃ y ∈ l', R x y := by
  induction h with
  | nil => exact ⟨fun _ h => (by cases h), fun _ h => (by cases h)⟩
  | cons hxy _ ih =>
    constructor
    · intro y hy
      cases hy with
      | head => exact ⟨_, List.mem_cons_self .., hxy⟩
      | tail _ hy =>
        obtain ⟨x, hx, hR⟩ := ih.1 y hy
        exact ⟨x, List.mem_cons_of_mem _ hx, hR⟩
    · intro x hx
      cases hx with
      | head => exact ⟨_, List.mem_cons_self .., hxy⟩
      | tail _ hx =>
        obtain ⟨y, hy, hR⟩ := ih.2 x hx
        exact ⟨y, List.mem_cons_of_mem _ hy, hR⟩

end Results
