import Jed.Lib.KeyCodes

/-!
# Comparisons that are total orders on some of the values

A comparison function need only order the values it is called on: those of one type, say. `TotalOn S cmp`
says that it does on the values in `S`, equal ones being those it calls equal. Such comparisons are put
together one after the other, on lists, by kind, and carried along functions.
-/

namespace KeyCodes

variable {α β : Type}

/-- On the values in `S`, `cmp` is a total order of the classes of what it calls equal. -/
structure TotalOn (S : α → Prop) (cmp : α → α → Ordering) : Prop where
  swap : ∀ {a b}, S a → S b → cmp b a = (cmp a b).swap
  trans : ∀ {a b c}, S a → S b → S c → cmp a b ≠ .gt → cmp b c ≠ .gt → cmp a c ≠ .gt

namespace TotalOn

variable {S T : α → Prop} {cmp cmp' : α → α → Ordering}

theorem refl (h : TotalOn S cmp) {a : α} (ha : S a) : cmp a a = .eq := by
  have hswap := h.swap ha ha
  cases hc : cmp a a with
  | lt => rw [hc] at hswap; cases hswap
  | eq => rfl
  | gt => rw [hc] at hswap; cases hswap

theorem gt_iff (h : TotalOn S cmp) {a b : α} (ha : S a) (hb : S b) : cmp a b = .gt ↔ cmp b a = .lt := by
  rw [h.swap ha hb]
  cases cmp a b <;> decide

theorem eq_symm (h : TotalOn S cmp) {a b : α} (ha : S a) (hb : S b) (heq : cmp a b = .eq) :
    cmp b a = .eq := by
  rw [h.swap ha hb, heq]
  rfl

/-- Less, then at most equal. -/
theorem lt_of_lt_of_le (h : TotalOn S cmp) {a b c : α} (ha : S a) (hb : S b) (hc : S c)
    (hab : cmp a b = .lt) (hbc : cmp b c ≠ .gt) : cmp a c = .lt := by
  cases hac : cmp a c with
  | lt => rfl
  | eq =>
    have hca : cmp c a ≠ .gt := by
      rw [h.eq_symm ha hc hac]
      decide
    exact absurd ((h.gt_iff hb ha).mpr hab) (h.trans hb hc ha hbc hca)
  | gt =>
    have hle := h.trans ha hb hc (by rw [hab]; decide) hbc
    exact absurd hac hle

/-- At most equal, then less. -/
theorem lt_of_le_of_lt (h : TotalOn S cmp) {a b c : α} (ha : S a) (hb : S b) (hc : S c)
    (hab : cmp a b ≠ .gt) (hbc : cmp b c = .lt) : cmp a c = .lt := by
  cases hac : cmp a c with
  | lt => rfl
  | eq =>
    have hca : cmp c a ≠ .gt := by
      rw [h.eq_symm ha hc hac]
      decide
    exact absurd ((h.gt_iff hc hb).mpr hbc) (h.trans hc ha hb hca hab)
  | gt =>
    have hle := h.trans ha hb hc hab (by rw [hbc]; decide)
    exact absurd hac hle

theorem eq_trans (h : TotalOn S cmp) {a b c : α} (ha : S a) (hb : S b) (hc : S c)
    (hab : cmp a b = .eq) (hbc : cmp b c = .eq) : cmp a c = .eq := by
  have hle := h.trans ha hb hc (by rw [hab]; decide) (by rw [hbc]; decide)
  have hge := h.trans hc hb ha (by rw [h.eq_symm hb hc hbc]; decide)
    (by rw [h.eq_symm ha hb hab]; decide)
  cases hac : cmp a c with
  | lt => exact absurd ((h.gt_iff hc ha).mpr hac) hge
  | eq => rfl
  | gt => exact absurd hac hle

theorem congr (h : TotalOn S cmp) (hc : ∀ a b, S a → S b → cmp' a b = cmp a b) : TotalOn S cmp' where
  swap ha hb := by
    rw [hc _ _ ha hb, hc _ _ hb ha]
    exact h.swap ha hb
  trans ha hb hd := by
    rw [hc _ _ ha hb, hc _ _ hb hd, hc _ _ ha hd]
    exact h.trans ha hb hd

theorem mono (h : TotalOn S cmp) (hs : ∀ a, T a → S a) : TotalOn T cmp where
  swap ha hb := h.swap (hs _ ha) (hs _ hb)
  trans ha hb hc := h.trans (hs _ ha) (hs _ hb) (hs _ hc)

theorem comap (h : TotalOn S cmp) (f : β → α) : TotalOn (fun b => S (f b)) fun a b => cmp (f a) (f b) where
  swap ha hb := h.swap ha hb
  trans ha hb hc := h.trans ha hb hc

/-- Values of one form compare as what they are made of. -/
theorem image {R : β → Prop} {cmpβ : β → β → Ordering} (h : TotalOn R cmpβ) {f : β → α}
    (hs : ∀ a, S a → ∃ x, R x ∧ f x = a)
    (hc : ∀ x y, R x → R y → cmp (f x) (f y) = cmpβ x y) : TotalOn S cmp where
  swap {a b} ha hb := by
    obtain ⟨x, hx, rfl⟩ := hs a ha
    obtain ⟨y, hy, rfl⟩ := hs b hb
    rw [hc _ _ hx hy, hc _ _ hy hx]
    exact h.swap hx hy
  trans {a b c} ha hb hd := by
    obtain ⟨x, hx, rfl⟩ := hs a ha
    obtain ⟨y, hy, rfl⟩ := hs b hb
    obtain ⟨z, hz, rfl⟩ := hs c hd
    rw [hc _ _ hx hy, hc _ _ hy hz, hc _ _ hx hz]
    exact h.trans hx hy hz

/-- A second comparison counts only between equal values. -/
theorem then_trans (h : TotalOn S cmp) {a b c : α} (ha : S a) (hb : S b) (hc : S c)
    {x y z : Ordering} (hxyz : x ≠ .gt → y ≠ .gt → z ≠ .gt) (hab : (cmp a b).then x ≠ .gt)
    (hbc : (cmp b c).then y ≠ .gt) : (cmp a c).then z ≠ .gt := by
  have hle : ∀ {o p : Ordering}, o.then p ≠ .gt → o ≠ .gt := by
    rintro o p hop rfl
    exact hop rfl
  cases h₁ : cmp a b with
  | gt => exact absurd h₁ (hle hab)
  | lt =>
    rw [h.lt_of_lt_of_le ha hb hc h₁ (hle hbc)]
    exact Ordering.noConfusion
  | eq =>
    cases h₂ : cmp b c with
    | gt => exact absurd h₂ (hle hbc)
    | lt =>
      rw [h.lt_of_le_of_lt ha hb hc (by rw [h₁]; decide) h₂]
      exact Ordering.noConfusion
    | eq =>
      rw [h₁] at hab
      rw [h₂] at hbc
      rw [h.eq_trans ha hb hc h₁ h₂]
      exact hxyz hab hbc

theorem andThen (h : TotalOn S cmp) (h' : TotalOn S cmp') :
    TotalOn S fun a b => (cmp a b).then (cmp' a b) where
  swap ha hb := by
    rw [h.swap ha hb, h'.swap ha hb, Ordering.swap_then]
  trans ha hb hc := h.then_trans ha hb hc (h'.trans ha hb hc)

/-- Lists, the first element that differs deciding, a prefix first. -/
theorem list (h : TotalOn S cmp) : TotalOn (fun l => ∀ a ∈ l, S a) (listCompare cmp) where
  swap {as bs} ha hb := by
    induction as generalizing bs with
    | nil => cases bs <;> rfl
    | cons a as ih =>
      cases bs with
      | nil => rfl
      | cons b bs =>
        rw [List.forall_mem_cons] at ha hb
        rw [listCompare, listCompare, h.swap ha.1 hb.1, ih ha.2 hb.2, Ordering.swap_then]
  trans {as bs cs} ha hb hc := by
    induction as generalizing bs cs with
    | nil => cases cs <;> intros <;> simp [listCompare]
    | cons a as ih =>
      cases bs with
      | nil => intro hab; exact absurd rfl hab
      | cons b bs =>
        cases cs with
        | nil => intro _ hbc; exact absurd rfl hbc
        | cons c cs =>
          rw [List.forall_mem_cons] at ha hb hc
          exact h.then_trans ha.1 hb.1 hc.1 (ih ha.2 hb.2 hc.2)

/-- Values of several kinds: the kinds in order, and an order in each. -/
theorem ranked (rank : α → ℕ) (h : ∀ k, TotalOn (fun a => S a ∧ rank a = k) cmp)
    (hne : ∀ a b, S a → S b → rank a ≠ rank b → cmp a b = compare (rank a) (rank b)) :
    TotalOn S cmp where
  swap {a b} ha hb := by
    by_cases hr : rank a = rank b
    · exact (h (rank a)).swap ⟨ha, rfl⟩ ⟨hb, hr.symm⟩
    · rw [hne a b ha hb hr, hne b a hb ha (Ne.symm hr)]
      exact Std.OrientedCmp.eq_swap
  trans {a b c} ha hb hc := by
    intro hab hbc
    have hle : ∀ {x y}, S x → S y → cmp x y ≠ .gt → rank x ≤ rank y := by
      intro x y hx hy hxy
      by_cases hr : rank x = rank y
      · exact hr.le
      · rw [hne x y hx hy hr] at hxy
        exact compare_le_iff_le.mp hxy
    by_cases hr : rank a = rank c
    · have hab' := hle ha hb hab
      have hbc' := hle hb hc hbc
      have hr' : rank b = rank a := by omega
      exact (h (rank a)).trans ⟨ha, rfl⟩ ⟨hb, hr'⟩ ⟨hc, hr.symm⟩ hab hbc
    · rw [hne a c ha hc hr]
      exact compare_le_iff_le.mpr ((hle ha hb hab).trans (hle hb hc hbc))

theorem of_bounded (size : α → ℕ) (h : ∀ k, TotalOn (fun a => size a < k) cmp) :
    TotalOn (fun _ => True) cmp where
  swap {a b} _ _ := (h (size a + size b + 1)).swap (by omega) (by omega)
  trans {a b c} _ _ _ := (h (size a + size b + size c + 1)).trans (by omega) (by omega) (by omega)

end TotalOn

theorem totalOn_compare [LinearOrder β] {S : α → Prop} (f : α → β) :
    TotalOn S fun a b => compare (f a) (f b) where
  swap _ _ := Std.OrientedCmp.eq_swap
  trans _ _ _ hab hbc :=
    compare_le_iff_le.mpr ((compare_le_iff_le.mp hab).trans (compare_le_iff_le.mp hbc))

end KeyCodes
