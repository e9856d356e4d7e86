import Mathlib.Algebra.Order.Field.Basic
import Mathlib.Data.Nat.Digits.Lemmas
import Mathlib.Tactic.FieldSimp
import Mathlib.Tactic.Linarith
import Mathlib.Tactic.Positivity
import Mathlib.Tactic.Ring

/-!
# Order-preserving codes

Lists over a linear order as keys, compared lexicographically. A code of a comparison says all of it:
keys of smaller values differ first in a smaller element, keys of equal values are one. So no key is
a prefix of another's, and codes are put together by concatenation.
-/

namespace KeyCodes

variable {β : Type} [LinearOrder β]

/-- The first element in which two lists differ is smaller in the first. -/
inductive Diverges : List β → List β → Prop where
  | head {x y : β} (s t : List β) : x < y → Diverges (x :: s) (y :: t)
  | tail (x : β) {s t : List β} : Diverges s t → Diverges (x :: s) (x :: t)

/-- The order of keys: lexicographic, a prefix first. -/
def lexCompare : List β → List β → Ordering
  | [], [] => .eq
  | [], _ :: _ => .lt
  | _ :: _, [] => .gt
  | x :: s, y :: t => (compare x y).then (lexCompare s t)

attribute [grind =] lexCompare

/-- The keys `s` and `t` code the comparison `o`. -/
def Codes (o : Ordering) (s t : List β) : Prop :=
  match o with
  | .lt => Diverges s t
  | .eq => s = t
  | .gt => Diverges t s

variable {s t : List β}

theorem Diverges.append (h : Diverges s t) (u v : List β) :
    Diverges (s ++ u) (t ++ v) := by
  induction h with
  | head s t hlt => exact .head _ _ hlt
  | tail x _ ih => exact .tail x ih

theorem Diverges.append_left (h : Diverges s t) (p : List β) :
    Diverges (p ++ s) (p ++ t) := by
  induction p with
  | nil => exact h
  | cons x p ih => exact .tail x ih

theorem Diverges.not_prefix (h : Diverges s t) : ¬s <+: t ∧ ¬t <+: s := by
  induction h with
  | head s t hlt =>
    rw [List.cons_prefix_cons, List.cons_prefix_cons]
    exact ⟨fun h => hlt.ne h.1, fun h => hlt.ne' h.1⟩
  | tail x _ ih =>
    rw [List.cons_prefix_cons, List.cons_prefix_cons]
    exact ⟨fun h => ih.1 h.2, fun h => ih.2 h.2⟩

theorem Diverges.lexCompare (h : Diverges s t) :
    lexCompare s t = .lt ∧ lexCompare t s = .gt := by
  induction h with
  | head s t hlt =>
    simp only [KeyCodes.lexCompare, compare_lt_iff_lt.mpr hlt, compare_gt_iff_gt.mpr hlt,
      Ordering.then, and_self]
  | tail x _ ih =>
    simp only [KeyCodes.lexCompare, compare_eq_iff_eq.mpr, Ordering.then, ih, and_self]

theorem lexCompare_self (s : List β) : lexCompare s s = .eq := by
  induction s with
  | nil => rfl
  | cons x s ih => simp only [lexCompare, compare_eq_iff_eq.mpr, Ordering.then, ih]

theorem lexCompare_eq_iff : lexCompare s t = .eq ↔ s = t := by
  constructor
  · intro h
    induction s generalizing t with
    | nil =>
      cases t with
      | nil => rfl
      | cons y t => cases h
    | cons x s ih =>
      cases t with
      | nil => cases h
      | cons y t =>
        rw [lexCompare, Ordering.then_eq_eq, compare_eq_iff_eq] at h
        rw [h.1, ih h.2]
  · rintro rfl
    exact lexCompare_self s

theorem Diverges.irrefl (s : List β) : ¬Diverges s s := fun h => h.not_prefix.1 List.prefix_rfl

variable {o : Ordering}

theorem Codes.lexCompare (h : Codes o s t) : lexCompare s t = o := by
  cases o with
  | lt => exact (Diverges.lexCompare h).1
  | eq => exact (show s = t from h) ▸ lexCompare_self s
  | gt => exact (Diverges.lexCompare h).2

theorem Codes.eq_of_prefix (h : Codes o s t) (hp : s <+: t ∨ t <+: s) : s = t := by
  cases o with
  | lt => exact absurd hp (not_or.mpr (Diverges.not_prefix h))
  | eq => exact h
  | gt => exact absurd hp.symm (not_or.mpr (Diverges.not_prefix h))

theorem Codes.eq_iff (h : Codes o s t) : s = t ↔ o = .eq := by
  constructor
  · rintro rfl
    cases o with
    | lt => exact absurd h (Diverges.irrefl s)
    | eq => rfl
    | gt => exact absurd h (Diverges.irrefl s)
  · rintro rfl
    exact h

theorem codes_self (s : List β) : Codes .eq s s := rfl

/-- A key and what follows it, compared. -/
theorem Codes.lexCompare_append (h : Codes o s t) (u v : List β) :
    KeyCodes.lexCompare (s ++ u) (t ++ v) = o.then (KeyCodes.lexCompare u v) := by
  cases o with
  | lt => exact (Diverges.append h u v).lexCompare.1
  | gt => exact (Diverges.append h v u).lexCompare.2
  | eq =>
    obtain rfl : s = t := h
    induction s with
    | nil => rfl
    | cons x s ih =>
      rw [List.cons_append, List.cons_append, KeyCodes.lexCompare, compare_eq_iff_eq.mpr rfl]
      exact ih

/-- What follows a key counts only after an equal one. -/
theorem Codes.append {o' : Ordering} {u v : List β} (h : Codes o s t)
    (h' : o = .eq → Codes o' u v) : Codes (o.then o') (s ++ u) (t ++ v) := by
  cases o with
  | lt => exact Diverges.append h u v
  | eq =>
    obtain rfl : s = t := h
    have h' := h' rfl
    cases o' with
    | lt => exact Diverges.append_left h' s
    | eq => exact congrArg (s ++ ·) h'
    | gt => exact Diverges.append_left h' s
  | gt => exact Diverges.append h v u

theorem Codes.append_left (h : Codes o s t) (p : List β) :
    Codes o (p ++ s) (p ++ t) := Codes.append (codes_self p) fun _ => h

theorem codes_lt {x y : β} (h : x < y) (s t : List β) : Codes .lt (x :: s) (y :: t) := .head s t h

theorem codes_gt {x y : β} (h : y < x) (s t : List β) : Codes .gt (x :: s) (y :: t) := .head t s h

theorem Codes.cons {o : Ordering} {s t : List β} (h : Codes o s t) (x : β) :
    Codes o (x :: s) (x :: t) := h.append_left [x]

theorem codes_single (x y : β) : Codes (compare x y) [x] [y] := by
  rcases lt_trichotomy x y with h | rfl | h
  · rw [compare_lt_iff_lt.mpr h]
    exact codes_lt h [] []
  · rw [compare_eq_iff_eq.mpr rfl]
    exact codes_self [x]
  · rw [compare_gt_iff_gt.mpr h]
    exact codes_gt h [] []

/-- Reversing the order of the elements reverses the comparison. -/
theorem Codes.map_anti {f : β → β} (hf : StrictAnti f) (h : Codes o s t) : Codes o.swap (s.map f) (t.map f) := by
  have hmap : ∀ {s t : List β}, Diverges s t → Diverges (t.map f) (s.map f) := by
    intro s t h
    induction h with
    | head s t hlt => exact .head _ _ (hf hlt)
    | tail x _ ih => exact .tail _ ih
  cases o with
  | lt => exact hmap h
  | eq => exact congrArg (List.map f) h
  | gt => exact hmap h

/-- Elements renamed in their order. -/
theorem Codes.map_on {γ : Type} [LinearOrder γ] {f : γ → β} {d : Set γ} (hf : StrictMonoOn f d)
    {s t : List γ} (h : Codes o s t) (hs : ∀ x ∈ s, x ∈ d) (ht : ∀ x ∈ t, x ∈ d) :
    Codes o (s.map f) (t.map f) := by
  have hmap : ∀ {s t : List γ}, Diverges s t → (∀ x ∈ s, x ∈ d) → (∀ x ∈ t, x ∈ d) →
      Diverges (s.map f) (t.map f) := by
    intro s t h hs ht
    induction h with
    | head s t hlt =>
      exact .head _ _ (hf (hs _ List.mem_cons_self) (ht _ List.mem_cons_self) hlt)
    | tail x _ ih =>
      exact .tail _ (ih (fun x h => hs x (List.mem_cons_of_mem _ h)) fun x h =>
        ht x (List.mem_cons_of_mem _ h))
  cases o with
  | lt => exact hmap h hs ht
  | eq => exact congrArg (List.map f) h
  | gt => exact hmap h ht hs

/-- Lists of one length code themselves. -/
theorem codes_of_length_eq (h : s.length = t.length) :
    Codes (KeyCodes.lexCompare s t) s t := by
  induction s generalizing t with
  | nil =>
    cases t with
    | nil => exact codes_self []
    | cons => cases h
  | cons x s ih =>
    cases t with
    | nil => cases h
    | cons y t => exact (codes_single x y).append fun _ => ih (Nat.succ.inj h)

section Lists

variable {α : Type} (cmp : α → α → Ordering) (enc : α → List β)

/-- Lists compared element by element, a prefix first. -/
def listCompare : List α → List α → Ordering
  | [], [] => .eq
  | [], _ :: _ => .lt
  | _ :: _, [] => .gt
  | a :: as, b :: bs => (cmp a b).then (listCompare as bs)

attribute [grind =] listCompare

variable {cmp enc}

/-- Lists of one length code element by element. -/
theorem codes_flatMap {as bs : List α} (hlen : as.length = bs.length)
    (h : ∀ a ∈ as, ∀ b ∈ bs, Codes (cmp a b) (enc a) (enc b)) :
    Codes (listCompare cmp as bs) (as.flatMap enc) (bs.flatMap enc) := by
  induction as generalizing bs with
  | nil =>
    cases bs with
    | nil => exact codes_self []
    | cons => cases hlen
  | cons a as ih =>
    cases bs with
    | nil => cases hlen
    | cons b bs =>
      refine (h a List.mem_cons_self b List.mem_cons_self).append fun _ => ?_
      exact ih (Nat.succ.inj hlen) fun a ha b hb =>
        h a (List.mem_cons_of_mem _ ha) b (List.mem_cons_of_mem _ hb)

/-- Lists of any length code behind a terminator below the front of every element. -/
theorem codes_terminated {as bs : List α} {term : β} {o : Ordering} {u v : List β}
    (h : ∀ a ∈ as, ∀ b ∈ bs, Codes (cmp a b) (enc a) (enc b))
    (hfront : ∀ a ∈ as ++ bs, ∃ x s, enc a = x :: s ∧ term < x)
    (htail : listCompare cmp as bs = .eq → Codes o u v) :
    Codes ((listCompare cmp as bs).then o) (as.flatMap enc ++ term :: u)
      (bs.flatMap enc ++ term :: v) := by
  induction as generalizing bs with
  | nil =>
    cases bs with
    | nil => exact (htail rfl).cons term
    | cons b bs =>
      obtain ⟨x, s, hx, hlt⟩ := hfront b (by simp)
      rw [List.flatMap_cons, hx]
      exact codes_lt hlt _ _
  | cons a as ih =>
    cases bs with
    | nil =>
      obtain ⟨x, s, hx, hlt⟩ := hfront a (by simp)
      rw [List.flatMap_cons, hx]
      exact codes_gt hlt _ _
    | cons b bs =>
      have hab := h a List.mem_cons_self b List.mem_cons_self
      have hrest := fun heq => @ih bs
        (fun a ha b hb => h a (List.mem_cons_of_mem _ ha) b (List.mem_cons_of_mem _ hb))
        (fun a ha => hfront a (by
          rcases List.mem_append.mp ha with ha | ha
          · simp [ha]
          · simp [ha])) heq
      rw [List.flatMap_cons, List.flatMap_cons, List.append_assoc, List.append_assoc, listCompare,
        Ordering.then_assoc]
      refine hab.append fun heq => hrest fun hlist => htail ?_
      rw [listCompare, heq, hlist]
      rfl

end Lists

end KeyCodes
