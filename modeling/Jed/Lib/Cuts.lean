import Mathlib.Data.Prod.Lex
import Mathlib.Order.CompletePartialOrder
import Mathlib.Order.ConditionallyCompleteLattice.Basic
import Mathlib.Order.Cover
import Mathlib.Order.Fin.Basic
import Mathlib.Order.MinMax
import Mathlib.Tactic.Tauto

/-!
# Intervals between cuts

The points of a linear order sit in a larger one, among cuts of two kinds: a lower cut starts an
interval, an upper cut ends one. Where a point lies between any two cuts in order, except an upper
cut that a lower cut follows at once, relations between intervals are comparisons of their cuts.
-/

namespace Cuts

variable {ι C : Type} [LinearOrder ι] [LinearOrder C]

/-- Points among lower and upper cuts. -/
structure Frame (ι C : Type) [LinearOrder ι] [LinearOrder C] where
  point : ι → C
  Lower : C → Prop
  Upper : C → Prop
  strictMono : StrictMono point
  point_not_lower : ∀ x, ¬Lower (point x)
  point_not_upper : ∀ x, ¬Upper (point x)
  disjoint : ∀ c, Lower c → ¬Upper c
  /-- A point separates two cuts, unless the first ends where the second starts. -/
  separated : ∀ c d, (Lower c ∨ Upper c) → (Lower d ∨ Upper d) → c < d →
    (∃ x, c < point x ∧ point x < d) ∨ (Upper c ∧ Lower d ∧ c ⋖ d)

namespace Frame

variable (F : Frame ι C) {c c' d d' : C}

/-- The points between two cuts. -/
def between (c d : C) : Set ι := {x | c < F.point x ∧ F.point x < d}

variable {F}

theorem mem_between {x : ι} : x ∈ F.between c d ↔ c < F.point x ∧ F.point x < d := Iff.rfl

theorem not_touch (hc : F.Lower c ∨ F.Upper c) (hd : F.Lower d ∨ F.Upper d)
    (h : F.Lower c ∨ F.Upper d) (hlt : c < d) : ∃ x, c < F.point x ∧ F.point x < d := by
  rcases F.separated c d hc hd hlt with hx | ⟨hu, hl, -⟩
  · exact hx
  · rcases h with h | h
    · exact absurd hu (F.disjoint c h)
    · exact absurd h (F.disjoint d hl)

theorem between_nonempty (hc : F.Lower c) (hd : F.Upper d) : (F.between c d).Nonempty ↔ c < d := by
  constructor
  · rintro ⟨x, h1, h2⟩
    exact h1.trans h2
  · exact not_touch (.inl hc) (.inr hd) (.inl hc)

theorem between_eq_empty (h : d ≤ c) : F.between c d = ∅ :=
  Set.eq_empty_iff_forall_notMem.mpr fun _ hx => not_lt.mpr h (hx.1.trans hx.2)

theorem between_inter : F.between c d ∩ F.between c' d' = F.between (max c c') (min d d') := by
  ext x
  simp only [Set.mem_inter_iff, mem_between, max_lt_iff, lt_min_iff]
  tauto

theorem between_ordConnected (c d : C) : (F.between c d).OrdConnected := by
  refine ⟨fun x hx y hy z hz => ⟨?_, ?_⟩⟩
  · exact hx.1.trans_le (F.strictMono.monotone hz.1)
  · exact (F.strictMono.monotone hz.2).trans_lt hy.2

theorem lower_max (hc : F.Lower c) (hc' : F.Lower c') : F.Lower (max c c') := by
  rcases max_choice c c' with h | h <;> rw [h] <;> assumption

theorem upper_min (hd : F.Upper d) (hd' : F.Upper d') : F.Upper (min d d') := by
  rcases min_choice d d' with h | h <;> rw [h] <;> assumption

theorem lower_ne_upper (hc : F.Lower c) (hd : F.Upper d) : c ≠ d := fun h => F.disjoint c hc (h ▸ hd)

theorem lower_le_upper (hc : F.Lower c) (hd : F.Upper d) : c ≤ d ↔ c < d :=
  (lower_ne_upper hc hd).le_iff_lt

theorem upper_le_lower (hd : F.Upper d) (hc : F.Lower c) : d ≤ c ↔ d < c :=
  (lower_ne_upper hc hd).symm.le_iff_lt

section Relations

variable (hc : F.Lower c) (hd : F.Upper d) (hc' : F.Lower c') (hd' : F.Upper d')
include hc hd hc' hd'

theorem subset_iff (h : c < d) : F.between c d ⊆ F.between c' d' ↔ c' ≤ c ∧ d ≤ d' := by
  constructor
  · intro hsub
    constructor
    · by_contra hlt
      rw [not_le] at hlt
      have hmin : F.Lower (min c' d) ∨ F.Upper (min c' d) := by
        rcases min_choice c' d with h | h <;> rw [h]
        · exact .inl hc'
        · exact .inr hd
      obtain ⟨x, h1, h2⟩ := not_touch (.inl hc) hmin (.inl hc) (lt_min hlt h)
      exact lt_asymm (hsub ⟨h1, h2.trans_le (min_le_right _ _)⟩).1 (h2.trans_le (min_le_left _ _))
    · by_contra hlt
      rw [not_le] at hlt
      have hmax : F.Lower (max d' c) ∨ F.Upper (max d' c) := by
        rcases max_choice d' c with h | h <;> rw [h]
        · exact .inr hd'
        · exact .inl hc
      obtain ⟨x, h1, h2⟩ := not_touch hmax (.inr hd) (.inr hd) (max_lt hlt h)
      exact lt_asymm (hsub ⟨(le_max_right _ _).trans_lt h1, h2⟩).2 ((le_max_left _ _).trans_lt h1)
  · rintro ⟨h1, h2⟩ x hx
    exact ⟨h1.trans_lt hx.1, hx.2.trans_le h2⟩

theorem overlap_iff : (F.between c d ∩ F.between c' d').Nonempty ↔ max c c' < min d d' := by
  rw [between_inter, between_nonempty (lower_max hc hc') (upper_min hd hd')]

theorem not_overlap_iff (h : c < d) (h' : c' < d') :
    ¬(F.between c d ∩ F.between c' d').Nonempty ↔ d < c' ∨ d' < c := by
  rw [overlap_iff hc hd hc' hd', not_lt, min_le_iff, le_max_iff, le_max_iff,
    upper_le_lower hd hc, upper_le_lower hd hc', upper_le_lower hd' hc, upper_le_lower hd' hc']
  constructor
  · rintro ((h1 | h1) | (h1 | h1))
    · exact absurd h1 (lt_asymm h)
    · exact .inl h1
    · exact .inr h1
    · exact absurd h1 (lt_asymm h')
  · rintro (h1 | h1)
    · exact .inl (.inr h1)
    · exact .inr (.inl h1)

theorem before_iff (h : c < d) (h' : c' < d') :
    (∀ x ∈ F.between c d, ∀ y ∈ F.between c' d', x < y) ↔ d < c' := by
  constructor
  · intro hall
    have hno : ¬(F.between c d ∩ F.between c' d').Nonempty := by
      rintro ⟨x, hx, hx'⟩
      exact lt_irrefl x (hall x hx x hx')
    rcases (not_overlap_iff hc hd hc' hd' h h').mp hno with h1 | h1
    · exact h1
    · obtain ⟨x, hx⟩ := (between_nonempty hc hd).mpr h
      obtain ⟨y, hy⟩ := (between_nonempty hc' hd').mpr h'
      have hyx : F.point y < F.point x := (hy.2.trans h1).trans hx.1
      exact absurd (F.strictMono (hall x hx y hy)) (lt_asymm hyx)
  · intro hlt x hx y hy
    exact F.strictMono.lt_iff_lt.mp ((hx.2.trans hlt).trans hy.1)

/-- An interval reaches no further right than another when its upper cut does not. -/
theorem overleft_iff (h : c < d) (h' : c' < d') :
    (∀ x ∈ F.between c d, ∃ y ∈ F.between c' d', x ≤ y) ↔ d ≤ d' := by
  constructor
  · intro hall
    by_contra hlt
    rw [not_le] at hlt
    have hmax : F.Lower (max d' c) ∨ F.Upper (max d' c) := by
      rcases max_choice d' c with h | h <;> rw [h]
      · exact .inr hd'
      · exact .inl hc
    obtain ⟨x, h1, h2⟩ := not_touch hmax (.inr hd) (.inr hd) (max_lt hlt h)
    obtain ⟨y, hy, hxy⟩ := hall x ⟨(le_max_right _ _).trans_lt h1, h2⟩
    have hd'x : d' < F.point x := (le_max_left _ _).trans_lt h1
    exact lt_irrefl _ ((hd'x.trans_le (F.strictMono.monotone hxy)).trans hy.2)
  · intro hle x hx
    by_cases hlow : c' < F.point x
    · exact ⟨x, ⟨hlow, hx.2.trans_le hle⟩, le_rfl⟩
    · obtain ⟨y, hy⟩ := (between_nonempty hc' hd').mpr h'
      exact ⟨y, hy, F.strictMono.le_iff_le.mp ((not_lt.mp hlow).trans hy.1.le)⟩

theorem overright_iff (h : c < d) (h' : c' < d') :
    (∀ x ∈ F.between c d, ∃ y ∈ F.between c' d', y ≤ x) ↔ c' ≤ c := by
  constructor
  · intro hall
    by_contra hlt
    rw [not_le] at hlt
    have hmin : F.Lower (min c' d) ∨ F.Upper (min c' d) := by
      rcases min_choice c' d with h | h <;> rw [h]
      · exact .inl hc'
      · exact .inr hd
    obtain ⟨x, h1, h2⟩ := not_touch (.inl hc) hmin (.inl hc) (lt_min hlt h)
    obtain ⟨y, hy, hyx⟩ := hall x ⟨h1, h2.trans_le (min_le_right _ _)⟩
    have hxc' : F.point x < c' := h2.trans_le (min_le_left _ _)
    exact lt_irrefl _ ((hy.1.trans_le (F.strictMono.monotone hyx)).trans hxc')
  · intro hle x hx
    by_cases hhigh : F.point x < d'
    · exact ⟨x, ⟨hle.trans_lt hx.1, hhigh⟩, le_rfl⟩
    · obtain ⟨y, hy⟩ := (between_nonempty hc' hd').mpr h'
      exact ⟨y, hy, F.strictMono.le_iff_le.mp (hy.2.le.trans (not_lt.mp hhigh))⟩

/-- Intervals that overlap, or of which one starts where the other ends, join into one. -/
theorem union_eq (h : c < d) (h' : c' < d')
    (hjoin : (F.between c d ∩ F.between c' d').Nonempty ∨ d ⋖ c' ∨ d' ⋖ c) :
    F.between c d ∪ F.between c' d' = F.between (min c c') (max d d') := by
  ext x
  simp only [Set.mem_union, mem_between, min_lt_iff, lt_max_iff]
  constructor
  · rintro (⟨h1, h2⟩ | ⟨h1, h2⟩)
    · exact ⟨.inl h1, .inl h2⟩
    · exact ⟨.inr h1, .inr h2⟩
  · have hgap : ∀ {c d c' d' : C}, F.Lower c → F.Upper d → F.Lower c' → F.Upper d' → c < d → c' < d' →
        ((F.between c d ∩ F.between c' d').Nonempty ∨ d ⋖ c' ∨ d' ⋖ c) →
        c < F.point x → F.point x < d' →
        (c < F.point x ∧ F.point x < d) ∨ (c' < F.point x ∧ F.point x < d') := by
      intro c d c' d' hc hd hc' hd' h h' hjoin h1 h2
      by_cases hxd : F.point x < d
      · exact .inl ⟨h1, hxd⟩
      · refine .inr ⟨?_, h2⟩
        have hdx : d < F.point x := lt_of_le_of_ne (not_lt.mp hxd) fun heq =>
          F.point_not_upper x (heq ▸ hd)
        by_contra hcx
        have hxc' : F.point x < c' := lt_of_le_of_ne (not_lt.mp hcx) fun heq =>
          F.point_not_lower x (heq ▸ hc')
        rcases hjoin with ⟨y, hy, hy'⟩ | hcov | hcov
        · exact lt_asymm (hdx.trans hxc') (hy'.1.trans hy.2)
        · exact hcov.2 hdx hxc'
        · exact lt_asymm (hdx.trans hxc') ((h'.trans hcov.1).trans h)
    have hjoin' : (F.between c' d' ∩ F.between c d).Nonempty ∨ d' ⋖ c ∨ d ⋖ c' := by
      rwa [Set.inter_comm, or_comm (a := d' ⋖ c)]
    rintro ⟨h1 | h1, h2 | h2⟩
    · exact .inl ⟨h1, h2⟩
    · exact hgap hc hd hc' hd' h h' hjoin h1 h2
    · exact (hgap hc' hd' hc hd h' h hjoin' h1 h2).symm
    · exact .inr ⟨h1, h2⟩

/-- A gap between two intervals shows in their union. -/
theorem union_ordConnected_iff (h : c < d) (h' : c' < d') :
    (F.between c d ∪ F.between c' d').OrdConnected ↔
      (F.between c d ∩ F.between c' d').Nonempty ∨ d ⋖ c' ∨ d' ⋖ c := by
  constructor
  · intro hconn
    have hgap : ∀ {c d c' d' : C}, F.Lower c → F.Upper d → F.Lower c' → F.Upper d' → c < d → c' < d' →
        (F.between c d ∪ F.between c' d').OrdConnected → d < c' → d ⋖ c' := by
      intro c d c' d' hc hd hc' hd' h h' hconn hlt
      rcases F.separated d c' (.inr hd) (.inl hc') hlt with ⟨z, h1, h2⟩ | ⟨-, -, hcov⟩
      · obtain ⟨x, hx⟩ := (between_nonempty hc hd).mpr h
        obtain ⟨y, hy⟩ := (between_nonempty hc' hd').mpr h'
        have hxz : x ≤ z := F.strictMono.le_iff_le.mp (hx.2.trans h1).le
        have hzy : z ≤ y := F.strictMono.le_iff_le.mp (h2.trans hy.1).le
        rcases hconn.out (.inl hx) (.inr hy) ⟨hxz, hzy⟩ with hz | hz
        · exact absurd hz.2 (lt_asymm h1)
        · exact absurd hz.1 (lt_asymm h2)
      · exact hcov
    by_cases hover : (F.between c d ∩ F.between c' d').Nonempty
    · exact .inl hover
    · rcases (not_overlap_iff hc hd hc' hd' h h').mp hover with hlt | hlt
      · exact .inr (.inl (hgap hc hd hc' hd' h h' hconn hlt))
      · exact .inr (.inr (hgap hc' hd' hc hd h' h (Set.union_comm _ _ ▸ hconn) hlt))
  · intro hjoin
    rw [union_eq hc hd hc' hd' h h' hjoin]
    exact between_ordConnected _ _

/-- Two intervals are adjacent (no point in both, no gap between them) when one starts where the
    other ends. -/
theorem adjacent_iff (h : c < d) (h' : c' < d') :
    Disjoint (F.between c d) (F.between c' d') ∧ (F.between c d ∪ F.between c' d').OrdConnected ↔
      d ⋖ c' ∨ d' ⋖ c := by
  rw [union_ordConnected_iff hc hd hc' hd' h h', Set.disjoint_iff_inter_eq_empty,
    ← Set.not_nonempty_iff_eq_empty]
  constructor
  · rintro ⟨hno, hover | htouch⟩
    · exact absurd hover hno
    · exact htouch
  · intro htouch
    refine ⟨(not_overlap_iff hc hd hc' hd' h h').mpr ?_, .inr htouch⟩
    exact htouch.imp CovBy.lt CovBy.lt

/-- An interval strictly inside another leaves two pieces of it. -/
theorem sdiff_two_pieces (h' : c' < d') (hl : c < c') (hu : d' < d) :
    (F.between c d \ F.between c' d') = F.between c c' ∪ F.between d' d ∧
      (F.between c c').Nonempty ∧ (F.between d' d).Nonempty ∧
      ¬(F.between c d \ F.between c' d').OrdConnected := by
  have hpieces : F.between c d \ F.between c' d' = F.between c c' ∪ F.between d' d := by
    ext x
    simp only [Set.mem_sdiff, Set.mem_union, mem_between, not_and_or, not_lt]
    constructor
    · rintro ⟨⟨h1, h2⟩, h3 | h3⟩
      · exact .inl ⟨h1, lt_of_le_of_ne h3 fun heq => F.point_not_lower x (heq ▸ hc')⟩
      · exact .inr ⟨lt_of_le_of_ne h3 fun heq => F.point_not_upper x (heq ▸ hd'), h2⟩
    · rintro (⟨h1, h2⟩ | ⟨h1, h2⟩)
      · exact ⟨⟨h1, (h2.trans h').trans hu⟩, .inl h2.le⟩
      · exact ⟨⟨(hl.trans h').trans h1, h2⟩, .inr h1.le⟩
  obtain ⟨x, hx⟩ := not_touch (F := F) (.inl hc) (.inl hc') (.inl hc) hl
  obtain ⟨y, hy⟩ := not_touch (F := F) (.inr hd') (.inr hd) (.inr hd) hu
  refine ⟨hpieces, ⟨x, hx⟩, ⟨y, hy⟩, fun hconn => ?_⟩
  obtain ⟨z, hz⟩ := (between_nonempty hc' hd').mpr h'
  have hxz : x ≤ z := F.strictMono.le_iff_le.mp (hx.2.trans hz.1).le
  have hzy : z ≤ y := F.strictMono.le_iff_le.mp (hz.2.trans hy.1).le
  rw [hpieces] at hconn
  rcases hconn.out (.inl hx) (.inr hy) ⟨hxz, hzy⟩ with hz' | hz'
  · exact lt_asymm hz'.2 hz.1
  · exact lt_asymm hz'.1 hz.2

omit hc hd hc' hd' in
theorem sdiff_disjoint (h : d' < c ∨ d < c') : F.between c d \ F.between c' d' = F.between c d := by
  refine sdiff_eq_left.mpr (Set.disjoint_left.mpr fun x hx hx' => ?_)
  rcases h with h | h
  · exact lt_asymm (hx'.2.trans h) hx.1
  · exact lt_asymm (hx.2.trans h) hx'.1

omit hc hd hc' hd' in
theorem sdiff_covered (hl : c' ≤ c) (hu : d ≤ d') : F.between c d \ F.between c' d' = ∅ :=
  Set.sdiff_eq_empty.mpr fun _ hx => ⟨hl.trans_lt hx.1, hx.2.trans_le hu⟩

omit hc hd hd' in
/-- An interval that covers the right part of another leaves what ends where it starts. -/
theorem sdiff_right {u : C} (hu : F.Upper u) (hcov : u ⋖ c') (hd : c' < d) (hdd : d ≤ d') :
    F.between c d \ F.between c' d' = F.between c u := by
  ext x
  simp only [Set.mem_sdiff, mem_between, not_and_or, not_lt]
  constructor
  · rintro ⟨⟨h1, h2⟩, h3 | h3⟩
    · refine ⟨h1, lt_of_not_ge fun hle => ?_⟩
      have hux : u < F.point x := lt_of_le_of_ne hle fun heq => F.point_not_upper x (heq ▸ hu)
      have hxc : F.point x < c' := lt_of_le_of_ne h3 fun heq => F.point_not_lower x (heq ▸ hc')
      exact hcov.2 hux hxc
    · exact absurd (h2.trans_le (hdd.trans h3)) (lt_irrefl _)
  · rintro ⟨h1, h2⟩
    exact ⟨⟨h1, (h2.trans hcov.1).trans hd⟩, .inl (h2.trans hcov.1).le⟩

omit hc hd hc' in
/-- An interval that covers the left part of another leaves what starts where it ends. -/
theorem sdiff_left {l : C} (hl : F.Lower l) (hcov : d' ⋖ l) (hc : c < d') (hcc : c' ≤ c) :
    F.between c d \ F.between c' d' = F.between l d := by
  ext x
  simp only [Set.mem_sdiff, mem_between, not_and_or, not_lt]
  constructor
  · rintro ⟨⟨h1, h2⟩, h3 | h3⟩
    · exact absurd (h1.trans_le (h3.trans hcc)) (lt_irrefl _)
    · refine ⟨lt_of_not_ge fun hle => ?_, h2⟩
      have hxl : F.point x < l := lt_of_le_of_ne hle fun heq => F.point_not_lower x (heq ▸ hl)
      have hdx : d' < F.point x := lt_of_le_of_ne h3 fun heq => F.point_not_upper x (heq ▸ hd')
      exact hcov.2 hdx hxl
  · rintro ⟨h1, h2⟩
    exact ⟨⟨(hc.trans hcov.1).trans h1, h2⟩, .inr (hcov.1.trans h1).le⟩

end Relations

end Frame

/-- A cut around a value of `ι`, or beyond all of them. Around a value lie, in order, the end of what
    excludes it, the start of what includes it, its point, the end of what includes it and the start
    of what excludes it. -/
abbrev Cut (ι : Type) := WithBot (WithTop (ι ×ₗ Fin 5))

/-- The cut at level `i` around `v`. -/
def around (v : ι) (i : Fin 5) : Cut ι :=
  (((toLex (v, i) : ι ×ₗ Fin 5) : WithTop (ι ×ₗ Fin 5)) : Cut ι)

/-- The point of a value. -/
def point (v : ι) : Cut ι := around v 2

/-- Where a lower bound cuts; none is below everything. -/
def lowerCut : Option ι → Bool → Cut ι
  | none, _ => ⊥
  | some v, inclusive => around v (if inclusive then 1 else 4)

/-- Where an upper bound cuts; none is above everything. -/
def upperCut : Option ι → Bool → Cut ι
  | none, _ => ⊤
  | some v, inclusive => around v (if inclusive then 3 else 0)

theorem around_lt {v w : ι} {i j : Fin 5} : around v i < around w j ↔ v < w ∨ v = w ∧ i < j := by
  rw [around, around, WithBot.coe_lt_coe, WithTop.coe_lt_coe, Prod.Lex.toLex_lt_toLex]

theorem bot_lt_around (v : ι) (i : Fin 5) : (⊥ : Cut ι) < around v i := WithBot.bot_lt_coe _

theorem around_lt_top (v : ι) (i : Fin 5) : around v i < (⊤ : Cut ι) :=
  WithBot.coe_lt_coe.mpr (WithTop.coe_lt_top _)

omit [LinearOrder ι] in
theorem around_inj {v w : ι} {i j : Fin 5} : around v i = around w j ↔ v = w ∧ i = j := by
  rw [around, around, WithBot.coe_inj, WithTop.coe_inj, toLex_inj, Prod.mk.injEq]

omit [LinearOrder ι] in
theorem exists_around (c : Cut ι) : c = ⊥ ∨ c = ⊤ ∨ ∃ v i, c = around v i := by
  cases c using WithBot.recBotCoe with
  | bot => exact .inl rfl
  | coe c =>
    cases c using WithTop.recTopCoe with
    | top => exact .inr (.inl rfl)
    | coe c => exact .inr (.inr ⟨(ofLex c).1, (ofLex c).2, rfl⟩)

/-- Cuts around one value are adjacent when their levels are. -/
theorem around_covBy (v : ι) {i j : Fin 5} (h : i ⋖ j) : around v i ⋖ around v j := by
  refine ⟨around_lt.mpr (.inr ⟨rfl, h.1⟩), fun c h1 h2 => ?_⟩
  rcases exists_around c with rfl | rfl | ⟨w, k, rfl⟩
  · exact not_lt_bot h1
  · exact not_top_lt h2
  · rcases around_lt.mp h1 with hvw | ⟨rfl, hik⟩
    · rcases around_lt.mp h2 with hwv | ⟨rfl, -⟩
      · exact lt_asymm hvw hwv
      · exact lt_irrefl _ hvw
    · rcases around_lt.mp h2 with hwv | ⟨-, hkj⟩
      · exact lt_irrefl _ hwv
      · exact h.2 hik hkj

/-- An upper bound ends where a lower bound starts when they share a value that one of them has. -/
theorem upperCut_covBy_lowerCut {u l : Option ι} {uinc linc : Bool} :
    upperCut u uinc ⋖ lowerCut l linc ↔ ∃ v, u = some v ∧ l = some v ∧ uinc ≠ linc := by
  constructor
  · intro h
    cases u with
    | none => exact absurd h.1 not_top_lt
    | some v =>
      cases l with
      | none => exact absurd h.1 not_lt_bot
      | some w =>
        rcases around_lt.mp h.1 with hlt | ⟨rfl, hij⟩
        · refine absurd (around_lt.mpr (.inl hlt)) (h.2 (c := around v 4) (around_lt.mpr ?_))
          exact .inr ⟨rfl, by cases uinc <;> decide⟩
        · refine ⟨v, rfl, rfl, ?_⟩
          rintro rfl
          cases uinc with
          | true => exact absurd hij (by decide)
          | false =>
            exact h.2 (c := around v 2) (around_lt.mpr (.inr ⟨rfl, by decide⟩))
              (around_lt.mpr (.inr ⟨rfl, by decide⟩))
  · rintro ⟨v, rfl, rfl, hne⟩
    cases uinc <;> cases linc
    · exact absurd rfl hne
    · exact around_covBy v (show (0 : Fin 5) ⋖ 1 from ⟨by decide, by decide⟩)
    · exact around_covBy v (show (3 : Fin 5) ⋖ 4 from ⟨by decide, by decide⟩)
    · exact absurd rfl hne

theorem point_strictMono : StrictMono (point : ι → Cut ι) := fun _ _ h => around_lt.mpr (.inl h)

/-- The bounds of half-open intervals of integers. -/
def intFrame : Frame ℤ (Cut ℤ) where
  point := point
  Lower c := ∃ v, c = lowerCut v true
  Upper c := ∃ v, c = upperCut v false
  strictMono := point_strictMono
  point_not_lower x := by
    rintro ⟨_ | v, h⟩
    · exact (bot_lt_around x 2).ne' h
    · exact absurd (around_inj.mp h).2 (by decide)
  point_not_upper x := by
    rintro ⟨_ | v, h⟩
    · exact (around_lt_top x 2).ne h
    · exact absurd (around_inj.mp h).2 (by decide)
  disjoint := by
    rintro c ⟨_ | v, rfl⟩ ⟨_ | w, h⟩
    · exact bot_ne_top h
    · exact (bot_lt_around w _).ne h
    · exact (around_lt_top v _).ne h
    · exact absurd (around_inj.mp h).2 (by decide)
  separated := by
    -- Only levels 0 and 1 occur, so the smaller cut's value separates unless the values are one.
    have hlevel : ∀ c, ((∃ v, c = lowerCut v true) ∨ ∃ v, c = upperCut v false) →
        c = ⊥ ∨ c = ⊤ ∨ ∃ v : ℤ, c = lowerCut (some v) true ∨ c = upperCut (some v) false := by
      rintro c (⟨_ | v, rfl⟩ | ⟨_ | v, rfl⟩)
      · exact .inl rfl
      · exact .inr (.inr ⟨v, .inl rfl⟩)
      · exact .inr (.inl rfl)
      · exact .inr (.inr ⟨v, .inr rfl⟩)
    have hbelow : ∀ {c : Cut ℤ} {v : ℤ}, c = lowerCut (some v) true ∨ c = upperCut (some v) false →
        c < point v := by
      rintro c v (rfl | rfl) <;> exact around_lt.mpr (.inr ⟨rfl, by decide⟩)
    intro c d hc hd hlt
    rcases hlevel c hc with rfl | rfl | ⟨v, hv⟩
    · rcases hlevel d hd with rfl | rfl | ⟨w, hw⟩
      · exact absurd hlt (lt_irrefl _)
      · exact .inl ⟨0, bot_lt_around _ _, around_lt_top _ _⟩
      · refine .inl ⟨w - 1, bot_lt_around _ _, ?_⟩
        rcases hw with rfl | rfl <;> exact around_lt.mpr (.inl (by omega))
    · exact absurd hlt not_top_lt
    · rcases hlevel d hd with rfl | rfl | ⟨w, hw⟩
      · exact absurd hlt not_lt_bot
      · exact .inl ⟨v, hbelow hv, around_lt_top _ _⟩
      · by_cases hvw : v < w
        · refine .inl ⟨v, hbelow hv, ?_⟩
          rcases hw with rfl | rfl <;> exact around_lt.mpr (.inl hvw)
        · right
          rcases hv with rfl | rfl <;> rcases hw with rfl | rfl
          · obtain ⟨-, hij⟩ := (around_lt.mp hlt).resolve_left hvw
            exact absurd hij (by decide)
          · obtain ⟨-, hij⟩ := (around_lt.mp hlt).resolve_left hvw
            exact absurd hij (by decide)
          · obtain ⟨rfl, -⟩ := (around_lt.mp hlt).resolve_left hvw
            exact ⟨⟨_, rfl⟩, ⟨_, rfl⟩, upperCut_covBy_lowerCut.mpr ⟨v, rfl, rfl, by decide⟩⟩
          · obtain ⟨-, hij⟩ := (around_lt.mp hlt).resolve_left hvw
            exact absurd hij (by decide)

/-- The bounds of intervals of a dense order without ends. -/
def denseFrame (ι : Type) [LinearOrder ι] [DenselyOrdered ι] [NoMinOrder ι] [NoMaxOrder ι]
    [Nonempty ι] : Frame ι (Cut ι) where
  point := point
  Lower c := ∃ v inc, c = lowerCut v inc
  Upper c := ∃ v inc, c = upperCut v inc
  strictMono := point_strictMono
  point_not_lower x := by
    rintro ⟨_ | v, inc, h⟩
    · exact (bot_lt_around x 2).ne' h
    · refine absurd (around_inj.mp h).2 ?_
      cases inc <;> decide
  point_not_upper x := by
    rintro ⟨_ | v, inc, h⟩
    · exact (around_lt_top x 2).ne h
    · refine absurd (around_inj.mp h).2 ?_
      cases inc <;> decide
  disjoint := by
    rintro c ⟨_ | v, inc, rfl⟩ ⟨_ | w, inc', h⟩
    · exact bot_ne_top h
    · exact (bot_lt_around w _).ne h
    · exact (around_lt_top v _).ne h
    · refine absurd (around_inj.mp h).2 ?_
      cases inc <;> cases inc' <;> decide
  separated := by
    have hlevel : ∀ c : Cut ι, ((∃ v inc, c = lowerCut v inc) ∨ ∃ v inc, c = upperCut v inc) →
        c = ⊥ ∨ c = ⊤ ∨ ∃ v inc, c = lowerCut (some v) inc ∨ c = upperCut (some v) inc := by
      rintro c (⟨_ | v, inc, rfl⟩ | ⟨_ | v, inc, rfl⟩)
      · exact .inl rfl
      · exact .inr (.inr ⟨v, inc, .inl rfl⟩)
      · exact .inr (.inl rfl)
      · exact .inr (.inr ⟨v, inc, .inr rfl⟩)
    have haround : ∀ {c : Cut ι} {v : ι} {inc : Bool},
        c = lowerCut (some v) inc ∨ c = upperCut (some v) inc → ∃ i, c = around v i := by
      rintro c v inc (rfl | rfl) <;> exact ⟨_, rfl⟩
    intro c d hc hd hlt
    rcases hlevel c hc with rfl | rfl | ⟨v, inc, hv⟩
    · rcases hlevel d hd with rfl | rfl | ⟨w, inc', hw⟩
      · exact absurd hlt (lt_irrefl _)
      · exact .inl ⟨Classical.arbitrary ι, bot_lt_around _ _, around_lt_top _ _⟩
      · obtain ⟨j, rfl⟩ := haround hw
        obtain ⟨x, hx⟩ := exists_lt w
        exact .inl ⟨x, bot_lt_around _ _, around_lt.mpr (.inl hx)⟩
    · exact absurd hlt not_top_lt
    · rcases hlevel d hd with rfl | rfl | ⟨w, inc', hw⟩
      · exact absurd hlt not_lt_bot
      · obtain ⟨i, rfl⟩ := haround hv
        obtain ⟨x, hx⟩ := exists_gt v
        exact .inl ⟨x, around_lt.mpr (.inl hx), around_lt_top _ _⟩
      · by_cases hvw : v < w
        · obtain ⟨i, rfl⟩ := haround hv
          obtain ⟨j, rfl⟩ := haround hw
          obtain ⟨x, hvx, hxw⟩ := exists_between hvw
          exact .inl ⟨x, around_lt.mpr (.inl hvx), around_lt.mpr (.inl hxw)⟩
        · have hmid : ∀ {i j : Fin 5}, i < 2 → 2 < j → ∃ x, around v i < point x ∧ point x < around v j :=
            fun hi hj => ⟨v, around_lt.mpr (.inr ⟨rfl, hi⟩), around_lt.mpr (.inr ⟨rfl, hj⟩)⟩
          rcases hv with rfl | rfl <;> rcases hw with rfl | rfl <;>
            obtain ⟨rfl, hij⟩ := (around_lt.mp hlt).resolve_left hvw
          · cases inc <;> cases inc'
            · exact absurd hij (by decide)
            · exact absurd hij (by decide)
            · exact .inl (hmid (by decide) (by decide))
            · exact absurd hij (by decide)
          · cases inc <;> cases inc'
            · exact absurd hij (by decide)
            · exact absurd hij (by decide)
            · exact absurd hij (by decide)
            · exact .inl (hmid (by decide) (by decide))
          · cases inc <;> cases inc'
            · exact .inl (hmid (by decide) (by decide))
            · exact .inr ⟨⟨_, _, rfl⟩, ⟨_, _, rfl⟩,
                upperCut_covBy_lowerCut.mpr ⟨v, rfl, rfl, by decide⟩⟩
            · exact .inr ⟨⟨_, _, rfl⟩, ⟨_, _, rfl⟩,
                upperCut_covBy_lowerCut.mpr ⟨v, rfl, rfl, by decide⟩⟩
            · exact absurd hij (by decide)
          · cases inc <;> cases inc'
            · exact absurd hij (by decide)
            · exact .inl (hmid (by decide) (by decide))
            · exact absurd hij (by decide)
            · exact absurd hij (by decide)

end Cuts
