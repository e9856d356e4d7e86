import Mathlib.Data.List.Lex
import Mathlib.Order.Lattice
import Mathlib.Tactic.Linarith
import Jed.Lib.TotalOn

/-!
# Prefixes and the lexicographic order

Lists over a linear order, compared lexicographically: where prefixes stand in the order, and what a
prefix-free set of lists buys (its members are ordered by a difference, which no extension undoes).
-/

namespace PrefixOrder

variable {α : Type} [LinearOrder α]

/-- No member is a proper prefix of another. -/
def PrefixFree (s : Set (List α)) : Prop := ∀ a ∈ s, ∀ b ∈ s, a <+: b → a = b

variable {a b : List α}

theorem append_lt_append_left (t : List α) : t ++ a < t ++ b ↔ a < b := by
  induction t with
  | nil => rfl
  | cons x t ih => simp [ih]

theorem le_append (a x : List α) : a ≤ a ++ x := by
  induction a with
  | nil => exact not_lt.mp (List.not_lt_nil x)
  | cons y a ih =>
    refine not_lt.mp fun h => ?_
    rw [List.cons_append, List.cons_lt_cons_iff] at h
    rcases h with h | ⟨-, h⟩
    · exact lt_irrefl _ h
    · exact not_le.mpr h ih

/-- A smaller list that is not a prefix stays smaller under any extension of both. -/
theorem append_lt_append (h : a < b) (hp : ¬a <+: b) (x y : List α) :
    a ++ x < b ++ y := by
  induction a generalizing b with
  | nil => exact absurd (List.nil_prefix) hp
  | cons c a ih =>
    cases b with
    | nil => exact absurd h (List.not_lt_nil _)
    | cons d b =>
      rw [List.cons_append, List.cons_append, List.cons_lt_cons_iff]
      rcases List.cons_lt_cons_iff.mp h with hcd | ⟨rfl, hab⟩
      · exact .inl hcd
      · refine .inr ⟨rfl, ih hab fun hab' => hp ?_⟩
        exact (List.prefix_cons_inj c).mpr hab'

theorem prefix_of_le_of_lt {t s k : List α} (h : t ≤ s) (h' : s < t ++ k) : t <+: s := by
  by_contra hp
  have hlt : t < s := lt_of_le_of_ne h fun heq => hp (heq ▸ List.prefix_refl t)
  have := append_lt_append hlt hp k []
  rw [List.append_nil] at this
  exact lt_asymm this h'

/-- Members of a prefix-free set compare as their extensions do. -/
theorem PrefixFree.append_lt_iff {s : Set (List α)} (hs : PrefixFree s) (ha : a ∈ s)
    (hb : b ∈ s) (hne : a ≠ b) (x y : List α) : a ++ x < b ++ y ↔ a < b := by
  have hfree : ∀ {a b : List α}, a ∈ s → b ∈ s → a ≠ b → ¬a <+: b := fun ha hb hne hp =>
    hne (hs _ ha _ hb hp)
  constructor
  · intro h
    rcases lt_or_gt_of_ne hne with hlt | hgt
    · exact hlt
    · exact absurd h (lt_asymm (append_lt_append hgt (hfree hb ha hne.symm) y x))
  · exact fun h => append_lt_append h (hfree ha hb hne) x y

omit [LinearOrder α] in
theorem PrefixFree.eq_of_prefix {s : Set (List α)} (hs : PrefixFree s) {c : List α} (ha : a ∈ s)
    (hb : b ∈ s) (hac : a <+: c) (hbc : b <+: c) : a = b := by
  rcases List.prefix_or_prefix_of_prefix hac hbc with h | h
  · exact hs a ha b hb h
  · exact (hs b hb a ha h).symm

section Comparison

open KeyCodes

variable {β : Type} {S : β → Prop} {cmp : β → β → Ordering}

/-- A list that starts with another, up to what the comparison calls equal. -/
def Begins (cmp : β → β → Ordering) (q l : List β) : Prop := listCompare cmp q (l.take q.length) = .eq

variable {p q : List β}

/-- A list stands before its extensions. -/
theorem listCompare_append (h : TotalOn S cmp) (hp : ∀ a ∈ p, S a) (hq : q ≠ []) :
    listCompare cmp p (p ++ q) = .lt := by
  induction p with
  | nil =>
    cases q with
    | nil => exact absurd rfl hq
    | cons => rfl
  | cons a p ih =>
    rw [List.forall_mem_cons] at hp
    rw [List.cons_append, listCompare, h.refl hp.1, ih hp.2]
    rfl

theorem begins_append (h : TotalOn S cmp) (hp : ∀ a ∈ p, S a) (q : List β) :
    Begins cmp p (p ++ q) := by
  rw [Begins, List.take_left]
  exact h.list.refl hp

theorem length_of_listCompare_eq (h : listCompare cmp p q = .eq) :
    p.length = q.length := by
  induction p generalizing q with
  | nil =>
    cases q with
    | nil => rfl
    | cons => cases h
  | cons a p ih =>
    cases q with
    | nil => cases h
    | cons b q =>
      rw [listCompare, Ordering.then_eq_eq] at h
      rw [List.length_cons, List.length_cons, ih h.2]

/-- What stands between two extensions of a list extends it too. -/
theorem begins_between (h : TotalOn S cmp) {a b c : List β} (hq : ∀ x ∈ q, S x) (ha : ∀ x ∈ a, S x)
    (hb : ∀ x ∈ b, S x) (hc : ∀ x ∈ c, S x) (hqa : Begins cmp q a) (hqc : Begins cmp q c)
    (hab : listCompare cmp a b ≠ .gt) (hbc : listCompare cmp b c ≠ .gt) : Begins cmp q b := by
  induction q generalizing a b c with
  | nil => rfl
  | cons x q ih =>
    cases a with
    | nil => cases hqa
    | cons a as =>
      cases c with
      | nil => cases hqc
      | cons c cs =>
        cases b with
        | nil => exact absurd rfl hab
        | cons b bs =>
          rw [Begins, List.length_cons, List.take_succ_cons, listCompare, Ordering.then_eq_eq]
            at hqa hqc ⊢
          rw [List.forall_mem_cons] at hq ha hb hc
          rw [listCompare] at hab hbc
          have hle : ∀ {y z : β} {o : Ordering}, (cmp y z).then o ≠ .gt → cmp y z ≠ .gt := by
            intro y z o ho hgt
            rw [hgt] at ho
            exact ho rfl
          -- the first elements: equal to `x` at both ends, so in between
          have hxb : cmp x b ≠ .gt := h.trans hq.1 ha.1 hb.1 (by rw [hqa.1]; decide) (hle hab)
          have hbx : cmp b x ≠ .gt := h.trans hb.1 hc.1 hq.1 (hle hbc)
            (by rw [h.eq_symm hq.1 hc.1 hqc.1]; decide)
          have heq : cmp x b = .eq := by
            rw [h.swap hq.1 hb.1] at hbx
            cases hx : cmp x b with
            | lt => rw [hx] at hbx; exact absurd rfl hbx
            | eq => rfl
            | gt => exact absurd hx hxb
          rw [h.eq_trans ha.1 hq.1 hb.1 (h.eq_symm hq.1 ha.1 hqa.1) heq] at hab
          rw [h.eq_trans hb.1 hq.1 hc.1 (h.eq_symm hq.1 hb.1 heq) hqc.1] at hbc
          exact ⟨heq, ih hq.2 ha.2 hb.2 hc.2 hqa.2 hqc.2 hab hbc⟩

end Comparison

/-- Values that are covered by others, no two by one of them, are no more than those. -/
theorem length_le_of_covered {β γ : Type} {R : β → γ → Prop} {l : List β} {values : List γ}
    (hcover : ∀ a ∈ l, ∃ t ∈ values, R a t) (hsep : l.Pairwise fun a b => ∀ t, R a t → ¬R b t) :
    l.length ≤ values.length := by
  induction l generalizing values with
  | nil => exact Nat.zero_le _
  | cons a l ih =>
    rw [List.forall_mem_cons] at hcover
    rw [List.pairwise_cons] at hsep
    obtain ⟨⟨t, ht, hat⟩, hcover⟩ := hcover
    obtain ⟨before, after, rfl⟩ := List.append_of_mem ht
    have hrest : ∀ b ∈ l, ∃ t ∈ before ++ after, R b t := by
      intro b hb
      obtain ⟨t', ht', hbt⟩ := hcover b hb
      refine ⟨t', ?_, hbt⟩
      have hne : t' ≠ t := fun heq => hsep.1 b hb t hat (heq ▸ hbt)
      rw [List.mem_append, List.mem_cons] at ht'
      rw [List.mem_append]
      exact ht'.imp_right fun h => h.resolve_left hne
    have := ih hrest hsep.2
    rw [List.length_append] at this
    rw [List.length_cons, List.length_append, List.length_cons]
    omega

end PrefixOrder
