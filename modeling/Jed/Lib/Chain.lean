import Mathlib.Data.Finset.Sort
import Mathlib.Data.Nat.Digits.Lemmas
import Mathlib.Tactic.Linarith

/-!
# Separator chains

The children of a search-tree node, read along its separators: child `i` satisfies a predicate
within `[sep (i-1), sep i)`, an absent separator being infinite, and the bounds ascend strictly.
A chain is opened at a child (or at two adjacent ones) and closed again over a replacement, which
is what inserting into, splitting or merging children does.
-/

namespace KeyChain

variable {κ τ : Type} [LinearOrder κ]

/-- `lo` lies below `hi`; an absent bound is infinite. -/
def Below (lo hi : Option κ) : Prop := ∀ a ∈ lo, ∀ b ∈ hi, a < b

/-- `k` lies in `[lo, hi)`. -/
structure InRange (lo hi : Option κ) (k : κ) : Prop where
  above : ∀ a ∈ lo, a ≤ k
  below : ∀ b ∈ hi, k < b

/-- `ts` are the children between the separators `ks`, from `lo` to `hi`. -/
def Chain (P : Option κ → Option κ → τ → Prop) : Option κ → List κ → List τ → Option κ → Prop
  | lo, [], [t], hi => Below lo hi ∧ P lo hi t
  | lo, s :: ss, t :: ts, hi => Below lo (some s) ∧ P lo (some s) t ∧ Chain P (some s) ss ts hi
  | _, _, _, _ => False

/-- The children left of a gap whose low bound is `lo'`. -/
def Before (P : Option κ → Option κ → τ → Prop) : Option κ → List κ → List τ → Option κ → Prop
  | lo, [], [], lo' => lo' = lo
  | lo, s :: ss, t :: ts, lo' => Below lo (some s) ∧ P lo (some s) t ∧ Before P (some s) ss ts lo'
  | _, _, _, _ => False

/-- The children right of a gap whose high bound is `hi'`. -/
def After (P : Option κ → Option κ → τ → Prop) : Option κ → List κ → List τ → Option κ → Prop
  | hi', [], [], hi => hi' = hi
  | hi', s :: ss, t :: ts, hi => hi' = some s ∧ Chain P (some s) ss (t :: ts) hi
  | _, _, _, _ => False

attribute [grind =] Chain Before After

variable {P Q : Option κ → Option κ → τ → Prop}

@[simp] theorem below_none_left (hi : Option κ) : Below none hi := by simp [Below]
@[simp] theorem below_none_right (lo : Option κ) : Below lo none := by simp [Below]
@[simp] theorem below_some {a b : κ} : Below (some a) (some b) ↔ a < b := by simp [Below]

variable {lo hi : Option κ} {k : κ}

theorem InRange.trans_below (h : InRange lo hi k) : Below lo hi :=
  fun a ha b hb => (h.above a ha).trans_lt (h.below b hb)

variable {ts : List τ}

theorem chain_nil :
    Chain P lo [] ts hi ↔ ∃ t, ts = [t] ∧ Below lo hi ∧ P lo hi t := by
  constructor
  · intro h
    cases ts with
    | nil => exact False.elim h
    | cons t us =>
      cases us with
      | nil => exact ⟨t, rfl, h⟩
      | cons _ _ => exact False.elim h
  · rintro ⟨t, rfl, h⟩
    exact h

variable {s : κ} {ss : List κ}

theorem chain_cons :
    Chain P lo (s :: ss) ts hi ↔ ∃ t us, ts = t :: us ∧ Below lo (some s) ∧ P lo (some s) t ∧
      Chain P (some s) ss us hi := by
  constructor
  · intro h
    cases ts with
    | nil => exact False.elim h
    | cons t us => exact ⟨t, us, rfl, h⟩
  · rintro ⟨t, us, rfl, h⟩
    exact h

variable {ks : List κ}

theorem Chain.length (h : Chain P lo ks ts hi) :
    ts.length = ks.length + 1 := by
  induction ks generalizing lo ts with
  | nil =>
    obtain ⟨t, rfl, -⟩ := chain_nil.mp h
    rfl
  | cons s ss ih =>
    obtain ⟨t, us, rfl, -, -, hus⟩ := chain_cons.mp h
    simp [ih hus]

theorem Chain.below (h : Chain P lo ks ts hi) :
    Below lo hi := by
  induction ks generalizing lo ts with
  | nil =>
    obtain ⟨t, rfl, hlt, -⟩ := chain_nil.mp h
    exact hlt
  | cons s ss ih =>
    obtain ⟨t, us, rfl, hlo, -, hus⟩ := chain_cons.mp h
    exact fun a ha b hb => (hlo a ha s rfl).trans (ih hus s rfl b hb)

/-- Separators lie strictly inside the bounds. -/
theorem Chain.sep_inside (h : Chain P lo ks ts hi) :
    ∀ s ∈ ks, Below lo (some s) ∧ Below (some s) hi := by
  induction ks generalizing lo ts with
  | nil => simp
  | cons s ss ih =>
    obtain ⟨t, us, rfl, hlo, -, hus⟩ := chain_cons.mp h
    intro x hx
    rcases List.mem_cons.mp hx with rfl | hx
    · exact ⟨hlo, hus.below⟩
    · obtain ⟨h1, h2⟩ := ih hus x hx
      exact ⟨fun a ha b hb => (hlo a ha s rfl).trans (h1 s rfl b hb), h2⟩

theorem Chain.seps_sorted (h : Chain P lo ks ts hi) : ks.Pairwise (· < ·) := by
  induction ks generalizing lo ts with
  | nil => simp
  | cons s ss ih =>
    obtain ⟨t, us, rfl, -, -, hus⟩ := chain_cons.mp h
    exact List.pairwise_cons.mpr ⟨fun x hx => below_some.mp (hus.sep_inside x hx).1, ih hus⟩

/-- The bounds of child `i`: the separators next to it, or the chain's own bounds at its ends. -/
theorem Chain.child (h : Chain P lo ks ts hi) {i : Nat} {t : τ} (ht : ts[i]? = some t) :
    P (if i = 0 then lo else ks[i - 1]?) (ks[i]?.or hi) t := by
  induction ks generalizing lo ts i with
  | nil =>
    obtain ⟨u, rfl, -, hu⟩ := chain_nil.mp h
    cases i with
    | zero =>
      obtain rfl : u = t := by simpa using ht
      exact hu
    | succ i => simp at ht
  | cons s ss ih =>
    obtain ⟨u, us, rfl, -, hu, hus⟩ := chain_cons.mp h
    cases i with
    | zero =>
      obtain rfl : u = t := by simpa using ht
      exact hu
    | succ i =>
      have hp := @ih (some s) us hus i (by simpa using ht)
      cases i with
      | zero => exact hp
      | succ i => exact hp

/-- Open a chain at child `i`. -/
theorem Chain.open (h : Chain P lo ks ts hi) {i : Nat} {t : τ} (ht : ts[i]? = some t) :
    ∃ lo' hi', Before P lo (ks.take i) (ts.take i) lo' ∧ Below lo' hi' ∧ P lo' hi' t ∧
      After P hi' (ks.drop i) (ts.drop (i + 1)) hi := by
  induction ks generalizing lo ts i with
  | nil =>
    obtain ⟨u, rfl, hlt, hu⟩ := chain_nil.mp h
    cases i with
    | zero =>
      obtain rfl : u = t := by simpa using ht
      exact ⟨lo, hi, by simp [Before], hlt, hu, by simp [After]⟩
    | succ i => simp at ht
  | cons s ss ih =>
    obtain ⟨u, us, rfl, hlo, hu, hus⟩ := chain_cons.mp h
    cases i with
    | zero =>
      obtain rfl : u = t := by simpa using ht
      refine ⟨lo, some s, by simp [Before], hlo, hu, ?_⟩
      cases us with
      | nil => simpa using hus.length
      | cons v vs => exact ⟨rfl, hus⟩
    | succ i =>
      obtain ⟨lo', hi', hb, hlt, hp, ha⟩ := ih hus (by simpa using ht)
      exact ⟨lo', hi', ⟨hlo, hu, hb⟩, hlt, hp, ha⟩

/-- Close the gap over a chain of replacements. -/
theorem Before.splice {lo' hi' : Option κ} {k₁ k k₂ : List κ} {t₁ t t₂ : List τ}
    (hb : Before P lo k₁ t₁ lo') (h : Chain P lo' k t hi') (ha : After P hi' k₂ t₂ hi) :
    Chain P lo (k₁ ++ k ++ k₂) (t₁ ++ t ++ t₂) hi := by
  induction k₁ generalizing lo t₁ with
  | nil =>
    cases t₁ with
    | cons _ _ => simp [Before] at hb
    | nil =>
      obtain rfl : lo' = lo := hb
      simp only [List.nil_append]
      -- The middle chain runs up to `hi'`, where the right part continues.
      induction k generalizing lo' t with
      | nil =>
        obtain ⟨u, rfl, hlt, hu⟩ := chain_nil.mp h
        match k₂, t₂, ha with
        | [], [], ha => obtain rfl : hi' = hi := ha; exact ⟨hlt, hu⟩
        | s :: ss, v :: vs, ha => obtain ⟨rfl, hc⟩ := ha; exact ⟨hlt, hu, hc⟩
      | cons s ss ih =>
        obtain ⟨u, us, rfl, hlo, hu, hus⟩ := chain_cons.mp h
        exact ⟨hlo, hu, ih hus⟩
  | cons s ss ih =>
    cases t₁ with
    | nil => simp [Before] at hb
    | cons u us => exact ⟨hb.1, hb.2.1, ih hb.2.2⟩

/-- The right part of a gap, opened at its first child. -/
theorem After.cons_open {hi' : Option κ} (h : After P hi' (s :: ss) ts hi) :
    hi' = some s ∧ ∃ u us hi'', ts = u :: us ∧ Below (some s) hi'' ∧ P (some s) hi'' u ∧
      After P hi'' ss us hi := by
  cases ts with
  | nil => simp [After] at h
  | cons u us =>
    obtain ⟨rfl, hc⟩ := h
    obtain ⟨lo', hi'', hb, hlt, hp, ha⟩ := hc.open (i := 0) (t := u) rfl
    obtain rfl : lo' = some s := by simpa [Before] using hb
    exact ⟨rfl, u, us, hi'', rfl, hlt, hp, by simpa using ha⟩

/-- Cut a chain at one of its separators. -/
theorem chain_append {k₁ k₂ : List κ} {t₁ t₂ : List τ} (hlen : t₁.length = k₁.length + 1) :
    Chain P lo (k₁ ++ s :: k₂) (t₁ ++ t₂) hi ↔
      Chain P lo k₁ t₁ (some s) ∧ Chain P (some s) k₂ t₂ hi := by
  induction k₁ generalizing lo t₁ with
  | nil =>
    match t₁, hlen with
    | [u], _ => simp [Chain, and_assoc]
  | cons a as ih =>
    match t₁, hlen with
    | u :: us, hlen =>
      simp only [List.cons_append, Chain]
      rw [ih (by simpa using hlen)]
      simp only [and_assoc]

section Contents

variable {ε : Type} {key : ε → κ} {recs : τ → List ε}

variable {lo : Option κ} {ks : List κ} {ts : List τ} {k : κ}

/-- Everything left of a gap lies below its low bound. -/
theorem Before.contents_lt (hP : ∀ lo hi t, P lo hi t → ∀ e ∈ recs t, InRange lo hi (key e))
    {lo' : Option κ} (h : Before P lo ks ts lo')
    (hk : ∀ a ∈ lo', a ≤ k) : ∀ e ∈ ts.flatMap recs, key e < k := by
  induction ks generalizing lo ts with
  | nil => cases ts <;> simp_all [Before]
  | cons s ss ih =>
    cases ts with
    | nil => simp
    | cons t ts =>
      obtain ⟨-, ht, hts⟩ := h
      -- the low bound of the gap is at or past every separator left of it
      have hs : ∀ {ks : List κ} {ts : List τ} {lo : Option κ},
          Before P lo ks ts lo' → ∀ a ∈ lo, a ≤ k := by
        intro ks
        induction ks with
        | nil =>
          intro ts lo h
          cases ts with
          | nil => obtain rfl : lo' = lo := h; exact hk
          | cons _ _ => simp [Before] at h
        | cons x xs ihx =>
          intro ts lo h
          cases ts with
          | nil => simp [Before] at h
          | cons u us => exact fun a ha => (h.1 a ha x rfl).le.trans (ihx h.2.2 x rfl)
      intro e he
      rw [List.flatMap_cons, List.mem_append] at he
      rcases he with he | he
      · exact ((hP _ _ _ ht e he).below s rfl).trans_le (hs hts s rfl)
      · exact ih hts e he

variable {hi : Option κ}

/-- Every key of a chain lies within its bounds. -/
theorem Chain.contents_inRange (hP : ∀ lo hi t, P lo hi t → ∀ e ∈ recs t, InRange lo hi (key e))
    (h : Chain P lo ks ts hi) :
    ∀ e ∈ ts.flatMap recs, InRange lo hi (key e) := by
  induction ks generalizing lo ts with
  | nil =>
    obtain ⟨t, rfl, -, ht⟩ := chain_nil.mp h
    simpa using hP _ _ _ ht
  | cons s ss ih =>
    obtain ⟨t, us, rfl, hlo, ht, hus⟩ := chain_cons.mp h
    intro e he
    rw [List.flatMap_cons, List.mem_append] at he
    rcases he with he | he
    · have hr := hP _ _ _ ht e he
      exact ⟨hr.above, fun b hb => (hr.below s rfl).trans (hus.below s rfl b hb)⟩
    · have hr := ih hus e he
      exact ⟨fun a ha => (hlo a ha s rfl).le.trans (hr.above s rfl), hr.below⟩

theorem After.contents_ge (hP : ∀ lo hi t, P lo hi t → ∀ e ∈ recs t, InRange lo hi (key e))
    {hi' : Option κ} (h : After P hi' ks ts hi)
    (hk : ∀ b ∈ hi', k < b) : ∀ e ∈ ts.flatMap recs, k < key e := by
  match ks, ts, h with
  | [], [], _ => simp
  | s :: ss, t :: ts, h =>
    obtain ⟨rfl, hc⟩ := h
    exact fun e he => (hk s rfl).trans_le ((hc.contents_inRange hP e he).above s rfl)

/-- The contents of a chain ascend when each child's do. -/
theorem Chain.contents_sorted (hP : ∀ lo hi t, P lo hi t → ∀ e ∈ recs t, InRange lo hi (key e))
    (hS : ∀ lo hi t, P lo hi t → (recs t).Pairwise (fun a b => key a < key b))
    (h : Chain P lo ks ts hi) :
    (ts.flatMap recs).Pairwise (fun a b => key a < key b) := by
  induction ks generalizing lo ts with
  | nil =>
    obtain ⟨t, rfl, -, ht⟩ := chain_nil.mp h
    simpa using hS _ _ _ ht
  | cons s ss ih =>
    obtain ⟨t, us, rfl, -, ht, hus⟩ := chain_cons.mp h
    rw [List.flatMap_cons, List.pairwise_append]
    refine ⟨hS _ _ _ ht, ih hus, fun a ha b hb => ?_⟩
    exact ((hP _ _ _ ht a ha).below s rfl).trans_le
      ((hus.contents_inRange hP b hb).above s rfl)

end Contents

/-- The children left of the slot `k` routes to are those whose high bound is at most `k`, so the
    gap opened there holds `k`. -/
theorem Chain.slot_inRange (h : Chain P lo ks ts hi)
    (hk : InRange lo hi k) :
    ∃ t lo' hi', ts[(ks.takeWhile (fun s => s ≤ k)).length]? = some t ∧
      Before P lo (ks.take (ks.takeWhile (fun s => s ≤ k)).length)
        (ts.take (ks.takeWhile (fun s => s ≤ k)).length) lo' ∧
      InRange lo' hi' k ∧ P lo' hi' t ∧
      After P hi' (ks.drop (ks.takeWhile (fun s => s ≤ k)).length)
        (ts.drop ((ks.takeWhile (fun s => s ≤ k)).length + 1)) hi := by
  induction ks generalizing lo ts with
  | nil =>
    obtain ⟨t, rfl, -, ht⟩ := chain_nil.mp h
    exact ⟨t, lo, hi, rfl, by simp [Before], hk, ht, by simp [After]⟩
  | cons s ss ih =>
    obtain ⟨t, us, rfl, hlo, ht, hus⟩ := chain_cons.mp h
    by_cases hs : s ≤ k
    · obtain ⟨u, lo', hi', hu, hb, hr, hp, ha⟩ :=
        ih hus ⟨(fun a ha => by obtain rfl : s = a := by simpa using ha
                                exact hs), hk.below⟩
      refine ⟨u, lo', hi', ?_, ?_, hr, hp, ?_⟩
      · simpa [hs] using hu
      · simpa [hs, Before] using ⟨hlo, ht, hb⟩
      · simpa [hs] using ha
    · refine ⟨t, lo, some s, by simp [hs], by simp [hs, Before], ?_, ht, ?_⟩
      · exact ⟨hk.above, fun b hb => by
          obtain rfl : s = b := by simpa using hb
          exact not_le.mp hs⟩
      · cases us with
        | nil => simpa using hus.length
        | cons v vs => simpa [hs, After] using hus

end KeyChain

/-! ## Editing a list around an index

The in-place vector edits (`v[i] = x`, `v.insert(i, x)`, `v.remove(i)`) as a cut into the part
before the index, the part edited and the part after it. -/

namespace Splice

variable {α : Type}

variable {l : List α} {i : Nat} {x : α}

theorem eq_cut (h : l[i]? = some x) :
    l = l.take i ++ x :: l.drop (i + 1) := by
  obtain ⟨hi, rfl⟩ := List.getElem?_eq_some_iff.mp h
  rw [← List.drop_eq_getElem_cons hi, List.take_append_drop]

theorem eq_cut_pair {y : α} (hx : l[i]? = some x)
    (hy : l[i + 1]? = some y) : l = l.take i ++ x :: y :: l.drop (i + 2) := by
  obtain ⟨hi, rfl⟩ := List.getElem?_eq_some_iff.mp hy
  conv_lhs => rw [eq_cut hx, List.drop_eq_getElem_cons hi]

theorem set_eq (h : i < l.length) (a : α) :
    l.set i a = l.take i ++ a :: l.drop (i + 1) := by
  rw [List.set_eq_take_append_cons_drop, if_pos h]

theorem insertIdx_eq (h : i ≤ l.length) (a : α) :
    l.insertIdx i a = l.take i ++ a :: l.drop i := by
  induction l generalizing i with
  | nil =>
    obtain rfl : i = 0 := by simpa using h
    rfl
  | cons x l ih =>
    cases i with
    | zero => rfl
    | succ i => simp [ih (by simpa using h)]

theorem eraseIdx_eq (l : List α) (i : Nat) : l.eraseIdx i = l.take i ++ l.drop (i + 1) :=
  List.eraseIdx_eq_take_drop_succ l i

theorem set_insertIdx_eq (h : i < l.length) (a b : α) :
    (l.set i a).insertIdx (i + 1) b = l.take i ++ a :: b :: l.drop (i + 1) := by
  rw [insertIdx_eq (by simpa using h), List.take_set, set_eq (by simp; omega),
    List.drop_set_of_lt (Nat.lt_succ_self i)]
  simp [List.take_take]

theorem set_eraseIdx_eq (h : i + 1 < l.length) (a : α) :
    (l.set i a).eraseIdx (i + 1) = l.take i ++ a :: l.drop (i + 2) := by
  rw [eraseIdx_eq, List.take_set, set_eq (by simp; omega), List.drop_set_of_lt (by omega)]
  simp [List.take_take]

theorem set_set_eq (h : i + 1 < l.length) (a b : α) :
    (l.set i a).set (i + 1) b = l.take i ++ a :: b :: l.drop (i + 2) := by
  rw [set_eq (by simpa using h), List.take_set, set_eq (by simp; omega),
    List.drop_set_of_lt (by omega)]
  simp [List.take_take]

end Splice
