import Mathlib.Algebra.GroupWithZero.Nat
import Mathlib.Data.List.Forall2
import Mathlib.Data.List.TakeDrop
import Mathlib.Order.Basic

/-!
# Windows on a list

The positions of a half-open window, and the part of a list they name. A predicate that holds on an
initial part of a list is cut by `partition_point`; what lies between two such cuts is a filter of the
list. `forWhile` is a loop whose body can stop it or fail.
-/

namespace Jed.Window

variable {α β σ ε : Type}

/-- The positions of the window, in ascending order. -/
def positions (w : Nat × Nat) : List Nat := List.range' w.1 (w.2 - w.1)

/-- The elements at the positions of the window. -/
def slice (w : Nat × Nat) (l : List α) : List α := (l.take w.2).drop w.1

/-- A list front to back, or back to front. -/
def inOrder (reverse : Bool) (l : List α) : List α := if reverse then l.reverse else l

/-- `<[T]>::partition_point`, for a predicate that holds on an initial part. -/
def partitionPoint (p : α → Bool) (l : List α) : Nat := (l.takeWhile p).length

/-- The predicate holds on an initial part of the list. -/
def Initial (p : α → Bool) (l : List α) : Prop := l.Pairwise fun a b => p b = true → p a = true

theorem partitionPoint_le (p : α → Bool) (l : List α) : partitionPoint p l ≤ l.length :=
  (List.takeWhile_sublist p).length_le

variable {p : α → Bool} {l : List α}

theorem partitionPoint_eq_zero (h : ∀ a ∈ l, p a = false) :
    partitionPoint p l = 0 := by
  cases l with
  | nil => rfl
  | cons a l => rw [partitionPoint, List.takeWhile_cons, h a List.mem_cons_self]; rfl

theorem partitionPoint_cons {a : α} (h : p a = true) (l : List α) :
    partitionPoint p (a :: l) = partitionPoint p l + 1 := by
  rw [partitionPoint, List.takeWhile_cons, h]
  rfl

theorem partitionPoint_eq_length (h : ∀ a ∈ l, p a = true) :
    partitionPoint p l = l.length := by
  induction l with
  | nil => rfl
  | cons a l ih =>
    rw [partitionPoint_cons (h a List.mem_cons_self), ih fun x hx => h x (List.mem_cons_of_mem a hx)]
    rfl

/-- The predicate holds before its cut. -/
theorem of_lt_partitionPoint {p : α → Bool} {l : List α} {i : Nat} (h : i < partitionPoint p l)
    {a : α} (ha : l[i]? = some a) : p a = true := by
  induction l generalizing i with
  | nil => cases ha
  | cons b l ih =>
    cases hb : p b with
    | false =>
      rw [partitionPoint, List.takeWhile_cons, hb] at h
      exact absurd h (Nat.not_lt_zero i)
    | true =>
      rw [partitionPoint_cons hb] at h
      cases i with
      | zero =>
        cases ha
        exact hb
      | succ i => exact ih (Nat.lt_of_succ_lt_succ h) ha

/-- An initial predicate fails from its cut on. -/
theorem Initial.of_partitionPoint_le (hp : Initial p l) {i : Nat}
    (h : partitionPoint p l ≤ i) {a : α} (ha : l[i]? = some a) : p a = false := by
  induction l generalizing i with
  | nil => cases ha
  | cons b l ih =>
    have hcons := List.pairwise_cons.mp hp
    cases hb : p b with
    | true =>
      rw [partitionPoint_cons hb] at h
      obtain ⟨i, rfl⟩ : ∃ k, i = k + 1 := ⟨i - 1, by omega⟩
      exact ih hcons.2 (by omega) ha
    | false =>
      have hmem := List.mem_of_getElem? ha
      cases List.mem_cons.mp hmem with
      | inl heq => rw [heq, hb]
      | inr hmem =>
        rw [Bool.eq_false_iff]
        intro hpa
        rw [hcons.1 a hmem hpa] at hb
        cases hb

@[simp] theorem slice_nil (w : Nat × Nat) : slice w ([] : List α) = [] := by simp [slice]

/-- What lies between two cuts is what the first predicate refuses and the second accepts. -/
theorem slice_eq_filter {q : α → Bool} (hp : Initial p l) (hq : Initial q l) :
    slice (partitionPoint p l, partitionPoint q l) l = l.filter fun a => !p a && q a := by
  induction l with
  | nil => rw [slice_nil, List.filter_nil]
  | cons a l ih =>
    have hp' := List.pairwise_cons.mp hp
    have hq' := List.pairwise_cons.mp hq
    have hrest := ih hp'.2 hq'.2
    cases hqa : q a with
    | false =>
      have hall : ∀ x ∈ a :: l, q x = false := by
        intro x hx
        cases List.mem_cons.mp hx with
        | inl heq => rw [heq, hqa]
        | inr hmem =>
          rw [Bool.eq_false_iff]
          intro hqx
          rw [hq'.1 x hmem hqx] at hqa
          cases hqa
      rw [partitionPoint_eq_zero hall, List.filter_eq_nil_iff.mpr]
      · simp [slice]
      · intro x hx
        rw [hall x hx]
        simp
    | true =>
      cases hpa : p a with
      | true =>
        rw [partitionPoint_cons hpa, partitionPoint_cons hqa, List.filter_cons, hpa]
        exact hrest
      | false =>
        have hall : ∀ x ∈ l, p x = false := by
          intro x hx
          rw [Bool.eq_false_iff]
          intro hpx
          rw [hp'.1 x hx hpx] at hpa
          cases hpa
        have hzero : partitionPoint p (a :: l) = 0 := by
          rw [partitionPoint, List.takeWhile_cons, hpa]
          rfl
        rw [partitionPoint_eq_zero hall] at hrest
        rw [hzero, partitionPoint_cons hqa, List.filter_cons, hpa, hqa]
        exact congrArg (a :: ·) hrest

variable {w : Nat × Nat}

theorem slice_eq_nil (h : w.2 ≤ w.1) (l : List α) : slice w l = [] :=
  List.drop_eq_nil_of_le (by rw [List.length_take]; omega)

theorem slice_max (first last : Nat) (l : List α) :
    slice (first, max last first) l = slice (first, last) l := by
  rcases Nat.le_total first last with hle | hle
  · rw [Nat.max_eq_left hle]
  · rw [Nat.max_eq_right hle, slice_eq_nil (Nat.le_refl _), slice_eq_nil hle]

theorem append_slice (h : w.1 ≤ w.2) (l : List α) :
    l.take w.1 ++ slice w l ++ l.drop w.2 = l := by
  have htake : l.take w.1 = (l.take w.2).take w.1 := by
    rw [List.take_take, Nat.min_eq_left h]
  rw [slice, htake, List.take_append_drop, List.take_append_drop]

theorem forall₂_slice (h : w.2 ≤ l.length) :
    List.Forall₂ (fun i a => l[i]? = some a) (positions w) (slice w l) := by
  rw [List.forall₂_iff_get]
  refine ⟨by simp [positions, slice, h], fun i h1 h2 => ?_⟩
  simp only [positions, List.length_range'] at h1
  have hlt : w.1 + i < l.length := by omega
  simp [positions, slice, List.getElem?_eq_getElem hlt]

variable {R : α → β → Prop} {xs : List α} {ys : List β}

theorem forall₂_inOrder (h : List.Forall₂ R xs ys)
    (reverse : Bool) : List.Forall₂ R (inOrder reverse xs) (inOrder reverse ys) := by
  cases reverse with
  | false => exact h
  | true => exact List.rel_reverse h

theorem sum_inOrder (reverse : Bool) (f : α → Nat) (l : List α) :
    ((inOrder reverse l).map f).sum = (l.map f).sum := by
  cases reverse with
  | false => rfl
  | true => rw [inOrder, if_pos rfl, List.map_reverse, List.sum_reverse_nat]

/-- The position a traversal takes from the window, and the window it leaves. -/
def takePosition (reverse : Bool) (w : Nat × Nat) : Nat × (Nat × Nat) :=
  if reverse then (w.2 - 1, (w.1, w.2 - 1)) else (w.1, (w.1 + 1, w.2))

theorem takePosition_le (reverse : Bool) (w : Nat × Nat) : (takePosition reverse w).2.2 ≤ w.2 := by
  cases reverse with
  | false => exact Nat.le_refl _
  | true => exact Nat.sub_le _ _

/-- The first element in order is the one at the position taken. -/
theorem inOrder_slice_cons (reverse : Bool) (hlt : w.1 < w.2) (hle : w.2 ≤ l.length) :
    ∃ a, l[(takePosition reverse w).1]? = some a ∧
      inOrder reverse (slice w l) = a :: inOrder reverse (slice (takePosition reverse w).2 l) := by
  cases reverse with
  | false =>
    have hget : w.1 < l.length := by omega
    refine ⟨l[w.1], List.getElem?_eq_getElem hget, ?_⟩
    have hcut : w.1 < (l.take w.2).length := by rw [List.length_take]; omega
    have hdrop := List.drop_eq_getElem_cons hcut
    rw [List.getElem_take] at hdrop
    exact hdrop
  | true =>
    have hget : w.2 - 1 < l.length := by omega
    refine ⟨l[w.2 - 1], List.getElem?_eq_getElem hget, ?_⟩
    have htake : l.take w.2 = l.take (w.2 - 1) ++ [l[w.2 - 1]] := by
      have hsucc := (List.take_append_getElem hget).symm
      rwa [Nat.sub_add_cancel (by omega)] at hsucc
    have hlen : w.1 ≤ (l.take (w.2 - 1)).length := by rw [List.length_take]; omega
    simp only [inOrder, if_true, slice, takePosition]
    rw [htake, List.drop_append_of_le_length hlen, List.reverse_append]
    rfl

/-- A `for` loop over a list, whose body answers whether to go on. -/
def forWhile (body : α → σ → Except ε Bool × σ) : List α → σ → Except ε Bool × σ
  | [], s => (.ok true, s)
  | a :: l, s =>
    match body a s with
    | (.ok true, s) => forWhile body l s
    | r => r

/-- The run on the left is the one on the right, unless it ended with an error of its own. -/
def Agrees (fails : ε → Prop) (x y : Except ε β × σ) : Prop := x = y ∨ ∃ e, fails e ∧ x.1 = .error e

theorem forWhile_append (body : α → σ → Except ε Bool × σ) (l₁ l₂ : List α) (s : σ) :
    forWhile body (l₁ ++ l₂) s =
      match forWhile body l₁ s with
      | (.ok true, s) => forWhile body l₂ s
      | r => r := by
  induction l₁ generalizing s with
  | nil => rfl
  | cons a l₁ ih =>
    rw [List.cons_append, forWhile, forWhile]
    split
    · exact ih _
    · rename_i hstop
      split
      · rename_i s' heq
        exact absurd heq (hstop s')
      · rfl

theorem forWhile_flatMap (body : β → σ → Except ε Bool × σ) (f : α → List β) (l : List α) (s : σ) :
    forWhile body (l.flatMap f) s = forWhile (fun a s => forWhile body (f a) s) l s := by
  induction l generalizing s with
  | nil => rfl
  | cons a l ih =>
    rw [List.flatMap_cons, forWhile_append, forWhile]
    split
    · exact ih _
    · rfl

theorem forWhile_map (body : β → σ → Except ε Bool × σ) (f : α → β) (l : List α) (s : σ) :
    forWhile body (l.map f) s = forWhile (fun a s => body (f a) s) l s := by
  induction l generalizing s with
  | nil => rfl
  | cons a l ih =>
    rw [List.map_cons, forWhile, forWhile]
    split
    · exact ih _
    · rfl

/-- Loops agree when their bodies do. -/
theorem Agrees.forWhile {fails : ε → Prop} {f : α → σ → Except ε Bool × σ}
    {g : β → σ → Except ε Bool × σ} (h : List.Forall₂ R xs ys)
    (hbody : ∀ a b, R a b → ∀ s, Agrees fails (f a s) (g b s)) (s : σ) :
    Agrees fails (forWhile f xs s) (forWhile g ys s) := by
  induction h generalizing s with
  | nil => exact .inl rfl
  | cons hab _ ih =>
    rw [Window.forWhile, Window.forWhile]
    cases hbody _ _ hab s with
    | inl heq =>
      rw [heq]
      split
      · exact ih _
      · exact .inl rfl
    | inr hfail =>
      obtain ⟨e, he, hx⟩ := hfail
      refine .inr ⟨e, he, ?_⟩
      split
      · rename_i s' heq
        rw [heq] at hx
        cases hx
      · exact hx

theorem mapM_of_forall₂ {γ : Type} {f : α → Except ε γ} {g : β → γ}
    (h : List.Forall₂ R xs ys) (hbody : ∀ a b, R a b → f a = .ok (g b)) :
    xs.mapM f = .ok (ys.map g) := by
  induction h with
  | nil => rfl
  | cons hab _ ih =>
    rw [List.mapM_cons, hbody _ _ hab, ih]
    rfl

end Jed.Window
