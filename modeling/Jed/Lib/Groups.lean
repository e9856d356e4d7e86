import Jed.Lib.TotalOn

/-!
# Groups of equal elements

The runs of equal elements of a sorted list, as spans of positions, and the run of each position.
-/

namespace Jed.Groups

open KeyCodes

variable {α : Type}

section

variable (cmp : α → α → Ordering)

/-- The spans from `s` on: `head` stands at `s`, and what stands between it and `pos` is equal to it. -/
def spansFrom (s : Nat) (head : α) (pos : Nat) : List α → List (Nat × Nat)
  | [] => [(s, pos)]
  | x :: l =>
    if cmp x head ≠ .eq then (s, pos) :: spansFrom pos x (pos + 1) l else spansFrom s head (pos + 1) l

/-- The spans of a list. -/
def spans : List α → List (Nat × Nat)
  | [] => []
  | x :: l => spansFrom cmp 0 x 1 l

end

/-- The ordinal of the span that a position lies in, and the span. -/
def locate (spans : List (Nat × Nat)) (pos : Nat) : Nat × Nat × Nat :=
  match spans with
  | [] => (0, 0, 0)
  | (a, b) :: spans =>
    if a ≤ pos ∧ pos < b then (0, a, b) else ((locate spans pos).1 + 1, (locate spans pos).2)

/-- How many groups come before the one of position `i`. -/
def ordinal (cmp : α → α → Ordering) : List α → Nat → Nat
  | x :: y :: l, i + 1 => (if cmp y x = .eq then 0 else 1) + ordinal cmp (y :: l) i
  | _, _ => 0

/-- The spans are those of the groups of `l`, which stands at `off`. -/
structure Located (cmp : α → α → Ordering) (off : ℕ) (l : List α) (spans : List (ℕ × ℕ)) : Prop where
  here : ∀ i, i < l.length → spans[(locate spans (off + i)).1]? = some (locate spans (off + i)).2
  start : ∀ i j span, i < l.length → spans[j]? = some span →
    (span.1 ≤ off + i ↔ j ≤ (locate spans (off + i)).1)
  finish : ∀ i j span, i < l.length → spans[j]? = some span →
    (off + i < span.2 ↔ (locate spans (off + i)).1 ≤ j)
  within : ∀ (j : ℕ) (span : ℕ × ℕ), spans[j]? = some span →
    off ≤ span.1 ∧ span.1 < span.2 ∧ span.2 ≤ off + l.length
  before : ∀ i j, (hi : i < l.length) → (hj : j < l.length) →
    (locate spans (off + i)).1 < (locate spans (off + j)).1 → cmp l[i] l[j] = .lt
  peers : ∀ i j, (hi : i < l.length) → (hj : j < l.length) →
    (locate spans (off + i)).1 = (locate spans (off + j)).1 → cmp l[i] l[j] = .eq

variable {cmp : α → α → Ordering}

theorem locate_first {a b pos : ℕ} {spans : List (ℕ × ℕ)} (h : a ≤ pos ∧ pos < b) :
    locate ((a, b) :: spans) pos = (0, a, b) := by rw [locate, if_pos h]

theorem locate_rest {a b pos : ℕ} {spans : List (ℕ × ℕ)} (h : ¬(a ≤ pos ∧ pos < b)) :
    locate ((a, b) :: spans) pos = ((locate spans pos).1 + 1, (locate spans pos).2) := by
  rw [locate, if_neg h]

/-- A group before the others. -/
theorem Located.cons {off : ℕ} {g rest : List α} {spans : List (ℕ × ℕ)} (hg : g ≠ [])
    (heq : ∀ x ∈ g, ∀ y ∈ g, cmp x y = .eq) (hlt : ∀ x ∈ g, ∀ y ∈ rest, cmp x y = .lt)
    (h : Located cmp (off + g.length) rest spans) :
    Located cmp off (g ++ rest) ((off, off + g.length) :: spans) := by
  have hpos : 0 < g.length := List.length_pos_iff.mpr hg
  have hfirst : ∀ i, i < g.length →
      locate ((off, off + g.length) :: spans) (off + i) = (0, off, off + g.length) :=
    fun i hi => locate_first ⟨Nat.le_add_right _ _, by omega⟩
  have hrest : ∀ i, ¬i < g.length → locate ((off, off + g.length) :: spans) (off + i) =
      ((locate spans (off + g.length + (i - g.length))).1 + 1,
        (locate spans (off + g.length + (i - g.length))).2) := by
    intro i hi
    rw [locate_rest (by omega), show off + g.length + (i - g.length) = off + i by omega]
  have hlen : (g ++ rest).length = g.length + rest.length := List.length_append
  constructor
  · intro i hi
    by_cases hin : i < g.length
    · rw [hfirst i hin]
      rfl
    · rw [hrest i hin, List.getElem?_cons_succ]
      exact h.here (i - g.length) (by omega)
  · intro i j span hi hj
    by_cases hin : i < g.length
    · rw [hfirst i hin]
      cases j with
      | zero =>
        cases hj
        exact iff_of_true (Nat.le_add_right _ _) le_rfl
      | succ j =>
        have hafter := (h.within j span hj).1
        exact iff_of_false (by omega) (by omega)
    · rw [hrest i hin]
      cases j with
      | zero =>
        cases hj
        exact iff_of_true (Nat.le_add_right _ _) (Nat.zero_le _)
      | succ j =>
        have hiff := h.start (i - g.length) j span (by omega) hj
        rw [show off + i = off + g.length + (i - g.length) by omega, hiff]
        exact Nat.succ_le_succ_iff.symm
  · intro i j span hi hj
    by_cases hin : i < g.length
    · rw [hfirst i hin]
      cases j with
      | zero =>
        cases hj
        exact iff_of_true (by simp only; omega) le_rfl
      | succ j =>
        have hafter := h.within j span hj
        exact iff_of_true (by omega) (Nat.zero_le _)
    · rw [hrest i hin]
      cases j with
      | zero =>
        cases hj
        exact iff_of_false (by simp only; omega) (by simp)
      | succ j =>
        have hiff := h.finish (i - g.length) j span (by omega) hj
        rw [show off + i = off + g.length + (i - g.length) by omega, hiff]
        exact Nat.succ_le_succ_iff.symm
  · intro j span hj
    cases j with
    | zero =>
      cases hj
      simp only
      omega
    | succ j =>
      have hafter := h.within j span hj
      omega
  · intro i j hi hj hij
    by_cases hinj : j < g.length
    · rw [hfirst j hinj] at hij
      exact absurd hij (Nat.not_lt_zero _)
    · by_cases hini : i < g.length
      · rw [List.getElem_append_left hini, List.getElem_append_right (not_lt.mp hinj)]
        exact hlt _ (List.getElem_mem _) _ (List.getElem_mem _)
      · rw [hrest i hini, hrest j hinj] at hij
        rw [List.getElem_append_right (not_lt.mp hini), List.getElem_append_right (not_lt.mp hinj)]
        exact h.before _ _ (by omega) (by omega) (Nat.succ_lt_succ_iff.mp hij)
  · intro i j hi hj hij
    by_cases hini : i < g.length
    · by_cases hinj : j < g.length
      · rw [List.getElem_append_left hini, List.getElem_append_left hinj]
        exact heq _ (List.getElem_mem _) _ (List.getElem_mem _)
      · rw [hfirst i hini, hrest j hinj] at hij
        cases hij
    · by_cases hinj : j < g.length
      · rw [hrest i hini, hfirst j hinj] at hij
        cases hij
      · rw [hrest i hini, hrest j hinj] at hij
        rw [List.getElem_append_right (not_lt.mp hini), List.getElem_append_right (not_lt.mp hinj)]
        exact h.peers _ _ (by omega) (by omega) (Nat.succ.inj hij)

theorem located_nil (off : ℕ) : Located cmp off [] [] where
  here i hi := absurd hi (Nat.not_lt_zero i)
  start i _ _ hi := absurd hi (Nat.not_lt_zero i)
  finish i _ _ hi := absurd hi (Nat.not_lt_zero i)
  within _ _ h := by cases h
  before i _ hi := absurd hi (Nat.not_lt_zero i)
  peers i _ hi := absurd hi (Nat.not_lt_zero i)

section

variable {S : α → Prop} (hcmp : TotalOn S cmp)

include hcmp

theorem located_spansFrom {l : List α} : ∀ {g : List α} {head : α} {off pos : ℕ}, g ≠ [] →
    S head → (∀ x ∈ g ++ l, S x) → (∀ x ∈ g, cmp x head = .eq) → pos = off + g.length →
    (g ++ l).Pairwise (fun a b => cmp a b ≠ .gt) →
    Located cmp off (g ++ l) (spansFrom cmp off head pos l) := by
  induction l with
  | nil =>
    rintro g head off pos hg hhead hS heads rfl -
    rw [List.append_nil] at hS
    refine Located.cons hg (fun x hx y hy => ?_) (fun _ _ _ hy => by cases hy) (located_nil _)
    exact hcmp.eq_trans (hS x hx) hhead (hS y hy) (heads x hx)
      (hcmp.eq_symm (hS y hy) hhead (heads y hy))
  | cons row l ih =>
    rintro g head off pos hg hhead hS heads rfl hsorted
    have hSrow : S row := hS row (List.mem_append_right _ List.mem_cons_self)
    rw [spansFrom]
    by_cases hrow : cmp row head = .eq
    · rw [if_neg (not_not_intro hrow)]
      rw [List.append_cons] at hS hsorted ⊢
      refine ih (List.append_ne_nil_of_left_ne_nil hg _) hhead hS (fun x hx => ?_) ?_ hsorted
      · cases List.mem_append.mp hx with
        | inl hx => exact heads x hx
        | inr hx => exact List.mem_singleton.mp hx ▸ hrow
      · rw [List.length_append, List.length_singleton, Nat.add_assoc]
    · rw [if_pos hrow]
      obtain ⟨-, hsortedRow, hcross⟩ := List.pairwise_append.mp hsorted
      have hSg : ∀ x ∈ g, S x := fun x hx => hS x (List.mem_append_left _ hx)
      have hSl : ∀ x ∈ row :: l, S x := fun x hx => hS x (List.mem_append_right _ hx)
      have hbefore : ∀ x ∈ g, cmp x row = .lt := by
        intro x hx
        cases hcase : cmp x row with
        | lt => rfl
        | eq =>
          have hback := hcmp.eq_symm (hSg x hx) hSrow hcase
          exact absurd (hcmp.eq_trans hSrow (hSg x hx) hhead hback (heads x hx)) hrow
        | gt => exact absurd hcase (hcross x hx row List.mem_cons_self)
      refine Located.cons hg (fun x hx y hy => ?_) (fun x hx y hy => ?_) ?_
      · exact hcmp.eq_trans (hSg x hx) hhead (hSg y hy) (heads x hx)
          (hcmp.eq_symm (hSg y hy) hhead (heads y hy))
      · cases hy with
        | head => exact hbefore x hx
        | tail _ hy =>
          exact hcmp.lt_of_lt_of_le (hSg x hx) hSrow (hSl y (List.mem_cons_of_mem _ hy)) (hbefore x hx)
            ((List.pairwise_cons.mp hsortedRow).1 y hy)
      · refine ih (g := [row]) (List.cons_ne_nil _ _) hSrow hSl (fun x hx => ?_) rfl hsortedRow
        rw [List.mem_singleton.mp hx]
        exact hcmp.refl hSrow

theorem located_spans {l : List α} (hS : ∀ x ∈ l, S x)
    (hsorted : l.Pairwise fun a b => cmp a b ≠ .gt) : Located cmp 0 l (spans cmp l) := by
  cases l with
  | nil => exact located_nil 0
  | cons head l =>
    have hhead := hS head List.mem_cons_self
    refine located_spansFrom hcmp (g := [head]) (List.cons_ne_nil _ _) hhead hS (fun x hx => ?_) rfl hsorted
    rw [List.mem_singleton.mp hx]
    exact hcmp.refl hhead

end

section

variable {l : List α} {spans : List (ℕ × ℕ)} (h : Located cmp 0 l spans)

include h

theorem Located.mono {i j : ℕ} (hij : i ≤ j) (hj : j < l.length) :
    (locate spans i).1 ≤ (locate spans j).1 := by
  have hi : i < l.length := hij.trans_lt hj
  have hhere := h.here i hi
  have hstart := h.start i _ _ hi hhere
  have hstart' := h.start j _ _ hj hhere
  simp only [Nat.zero_add] at hstart hstart'
  exact hstart'.mp ((hstart.mpr le_rfl).trans hij)

theorem Located.first {j : ℕ} {span : ℕ × ℕ} (hj : spans[j]? = some span) :
    span.1 < l.length ∧ (locate spans span.1).1 = j := by
  have hwithin := h.within j span hj
  have hlt : span.1 < l.length := by omega
  have hstart := (h.start span.1 j span hlt hj).mp (by omega)
  have hfinish := (h.finish span.1 j span hlt hj).mp (by omega)
  rw [Nat.zero_add] at hstart hfinish
  exact ⟨hlt, by omega⟩

/-- The ordinal of a group is the number of the groups before it. -/
theorem Located.step {i : ℕ} (hi : i + 1 < l.length)
    (heq : cmp l[i + 1] l[i] = .eq → cmp l[i] l[i + 1] = .eq)
    (heq' : cmp l[i] l[i + 1] = .eq → cmp l[i + 1] l[i] = .eq) :
    (locate spans (i + 1)).1 = (locate spans i).1 + (if cmp l[i + 1] l[i] = .eq then 0 else 1) := by
  have hmono : (locate spans i).1 ≤ (locate spans (i + 1)).1 := h.mono (Nat.le_succ i) hi
  have hhere := h.here (i + 1) hi
  have hpeers := h.peers i (i + 1) (by omega) hi
  have hbefore := h.before i (i + 1) (by omega) hi
  simp only [Nat.zero_add] at hhere hpeers hbefore
  by_cases hsame : (locate spans i).1 = (locate spans (i + 1)).1
  · have hcmp := heq' (hpeers hsame)
    rw [if_pos hcmp, ← hsame, Nat.add_zero]
  · have hcmp : cmp l[i] l[i + 1] = .lt := hbefore (Nat.lt_of_le_of_ne hmono hsame)
    rw [if_neg fun hback => by rw [heq hback] at hcmp; cases hcmp]
    -- the group after that of `i` starts behind `i`, so that the next position is in it
    have hnext : (locate spans i).1 + 1 < spans.length := by
      have hlt := (List.getElem?_eq_some_iff.mp hhere).1
      omega
    obtain ⟨hfirst, hordinal⟩ := h.first (List.getElem?_eq_getElem hnext)
    have hbehind : i < spans[(locate spans i).1 + 1].1 := by
      by_contra hle
      have hback := h.mono (not_lt.mp hle) (by omega)
      omega
    have hle : (locate spans (i + 1)).1 ≤ _ := h.mono hbehind hfirst
    omega

end

/-- The spans lie side by side from `a` up to `n`. -/
def Tiled (n : Nat) : Nat → List (Nat × Nat) → Prop
  | a, [] => a = n
  | a, (start, finish) :: spans => start = a ∧ a < finish ∧ Tiled n finish spans

theorem tiled_spansFrom (cmp : α → α → Ordering) (l : List α) :
    ∀ {s pos : ℕ} {head : α}, s < pos → Tiled (pos + l.length) s (spansFrom cmp s head pos l) := by
  induction l with
  | nil => exact fun h => ⟨rfl, h, rfl⟩
  | cons x l ih =>
    intro s pos head h
    have hlen : pos + (x :: l).length = pos + 1 + l.length := by
      rw [List.length_cons]
      omega
    rw [spansFrom, hlen]
    split
    · exact ⟨rfl, h, ih (Nat.lt_succ_self pos)⟩
    · exact ih (h.trans (Nat.lt_succ_self pos))

theorem tiled_spans (cmp : α → α → Ordering) (l : List α) : Tiled l.length 0 (spans cmp l) := by
  cases l with
  | nil => rfl
  | cons x l =>
    rw [List.length_cons, Nat.add_comm]
    exact tiled_spansFrom cmp l Nat.zero_lt_one

theorem Tiled.le {n : ℕ} {spans : List (ℕ × ℕ)} : ∀ {a : ℕ}, Tiled n a spans → a ≤ n := by
  induction spans with
  | nil => exact fun h => le_of_eq h
  | cons span spans ih => exact fun h => h.2.1.le.trans (ih h.2.2)

theorem ordinal_succ {l : List α} : ∀ {i : ℕ} (hi : i + 1 < l.length),
    ordinal cmp l (i + 1) = ordinal cmp l i + (if cmp l[i + 1] l[i] = .eq then 0 else 1) := by
  induction l with
  | nil => exact fun hi => absurd hi (Nat.not_lt_zero _)
  | cons x l ih =>
    intro i hi
    cases l with
    | nil => exact absurd hi (by simp)
    | cons y l =>
      cases i with
      | zero => simp [ordinal]
      | succ i =>
        have hrest := @ih i (by simpa using hi)
        simp only [ordinal, List.getElem_cons_succ] at hrest ⊢
        omega

theorem ordinal_le (cmp : α → α → Ordering) (l : List α) (i : ℕ) : ordinal cmp l i ≤ i := by
  induction l generalizing i with
  | nil => exact Nat.zero_le _
  | cons x l ih =>
    cases l with
    | nil => exact Nat.zero_le _
    | cons y l =>
      cases i with
      | zero => exact Nat.zero_le _
      | succ i =>
        have hrest := ih i
        rw [ordinal]
        split <;> omega

theorem locate_eq_ordinal {S : α → Prop} (hcmp : TotalOn S cmp) {l : List α} (hS : ∀ x ∈ l, S x)
    (hsorted : l.Pairwise fun a b => cmp a b ≠ .gt) {i : ℕ} (hi : i < l.length) :
    (locate (spans cmp l) i).1 = ordinal cmp l i := by
  have h := located_spans hcmp hS hsorted
  have hSi : ∀ i, (hi : i < l.length) → S l[i] := fun i hi => hS _ (List.getElem_mem hi)
  induction i with
  | zero =>
    have hzero : (locate (spans cmp l) 0).1 = 0 := by
      have hhere := h.here 0 hi
      have hpos : 0 < (spans cmp l).length :=
        (Nat.zero_le _).trans_lt (List.getElem?_eq_some_iff.mp hhere).1
      obtain ⟨hfirst, hordinal⟩ := h.first (List.getElem?_eq_getElem hpos)
      have hle := h.mono (Nat.zero_le _) hfirst
      omega
    rw [hzero]
    cases l with
    | nil => rfl
    | cons x l => cases l <;> rfl
  | succ i ih =>
    rw [ordinal_succ hi, h.step hi (hcmp.eq_symm (hSi _ _) (hSi _ _)) (hcmp.eq_symm (hSi _ _) (hSi _ _)),
      ih (by omega)]

end Jed.Groups
