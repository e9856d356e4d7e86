import Jed.Lib.Lockstep
import Jed.Regex.Amounts
import Mathlib.Algebra.Group.Prod
import Mathlib.Algebra.Group.Nat.Defs

/-!
# The work of a compilation

What the emission of a tree spends, its instructions out of `MAX_REGEX_PROGRAM` and its calls of
`Compiler::emit`, and the bound on the calls of a compilation.
-/

namespace Jed.Regex

open Jed.Runs

/-- The program is within its bound. -/
def Capped (c : Compiler) : Prop := c.insts.length ≤ maxRegexProgram

/-- The program is at its bound, and that is the error. -/
def Full (e : RegexError) (c : Compiler) : Prop :=
  e = .tooComplex ∧ c.insts.length = maxRegexProgram

/-- The instructions and the calls so far. -/
def Compiler.spent (c : Compiler) : ℕ × ℕ := (c.insts.length, c.calls)

/-- The emission pushes `size` instructions and makes `calls` calls, or stops at the bound earlier, when
    the amounts are in `Short`. -/
def Emits {α : Type} (x : Emission α) (size calls : ℕ) (Short : ℕ → ℕ → Prop) : Prop :=
  Spends Capped Full Compiler.spent x (fun d => d = (size, calls))
    (fun d => d.1 < size ∧ d.2 ≤ calls ∧ Short d.1 d.2)

namespace Emits

variable {α β : Type} {s s' s'' u u' u'' : ℕ} {S S' S'' : ℕ → ℕ → Prop}
variable {x y : Emission Unit} {f : α → Emission β}

theorem cast {x : Emission α} (h : Emits x s u S) (hs : s = s') (hu : u = u')
    (hS : ∀ p t, p < s → t ≤ u → S p t → S' p t) : Emits x s' u' S' := by
  subst hs hu
  exact h.weaken (fun d hd => hd) fun d hd => ⟨hd.1, hd.2.1, hS _ _ hd.1 hd.2.1 hd.2.2⟩

theorem bind {x : Emission α} (hx : Emits x s u S) (hf : ∀ a, Emits (f a) s' u' S')
    (hleft : ∀ p t, p < s → S p t → S'' p t)
    (hright : ∀ p t, p < s' → S' p t → S'' (s + p) (u + t)) :
    Emits (x >>= f) (s + s') (u + u') S'' := by
  refine Spends.bind hx hf ?_ ?_ ?_
  · rintro d d' rfl rfl
    rfl
  · rintro d ⟨hp, ht, hS⟩
    exact ⟨Nat.lt_of_lt_of_le hp (Nat.le_add_right _ _), Nat.le_trans ht (Nat.le_add_right _ _),
      hleft _ _ hp hS⟩
  · rintro d d' rfl ⟨hp, ht, hS⟩
    exact ⟨Nat.add_lt_add_left hp s, Nat.add_le_add_left ht u, hright _ _ hp hS⟩

end Emits

/-- A step that changes neither amount, and does not fail. -/
def Still {α : Type} (x : Emission α) : Prop := Emits x 0 0 fun _ _ => False

theorem Still.intro {α : Type} {x : Emission α} (h : ∀ c, ∃ a c', x c = (.ok a, c') ∧
    c'.insts.length = c.insts.length ∧ c'.calls = c.calls) : Still x := by
  intro c hc
  obtain ⟨a, c', hx, hinsts, hcalls⟩ := h c
  rw [hx]
  refine ⟨?_, (0, 0), ?_, rfl⟩
  · rw [Capped, hinsts]
    exact hc
  · rw [Compiler.spent, hinsts, hcalls]
    rfl

theorem pure_still {α : Type} (a : α) : Still (pure a) := .intro fun c => ⟨a, c, rfl, rfl, rfl⟩

theorem here_still : Still here := .intro fun c => ⟨_, c, rfl, rfl, rfl⟩

theorem patch_still (i : ℕ) (inst : Inst) : Still (patch i inst) :=
  .intro fun _ => ⟨(), _, rfl, List.length_set, rfl⟩

theorem pushClass_still (cc : CharClass) : Still (pushClass cc) :=
  .intro fun _ => ⟨_, _, rfl, rfl, rfl⟩

theorem called_emits : Emits called 0 1 fun _ _ => False := fun _ hc => ⟨hc, (0, 1), rfl, rfl⟩

/-- A push fails where it stands. -/
theorem push_emits (inst : Inst) : Emits (push inst) 1 0 fun p t => p = 0 ∧ t = 0 := by
  intro c hc
  rw [push]
  by_cases hfull : c.insts.length ≥ maxRegexProgram
  · rw [if_pos hfull]
    exact ⟨⟨rfl, Nat.le_antisymm hc hfull⟩, (0, 0), rfl, Nat.one_pos, Nat.le_refl _, rfl, rfl⟩
  · rw [if_neg hfull]
    refine ⟨?_, (1, 0), ?_, rfl⟩
    · rw [Capped, List.length_append]
      exact Nat.lt_of_not_le hfull
    · rw [Compiler.spent, List.length_append]
      rfl

namespace Emits

variable {α β : Type} {s s' u u' : ℕ} {S S' T : ℕ → ℕ → Prop}
variable {x y : Emission Unit}

theorem after_still {x : Emission α} {f : α → Emission β} (hx : Still x)
    (hf : ∀ a, Emits (f a) s u S) : Emits (x >>= f) s u S :=
  (Emits.bind hx hf (fun _ _ _ h => h.elim) fun p t _ h => by rwa [Nat.zero_add, Nat.zero_add]).cast
    (Nat.zero_add s) (Nat.zero_add u) fun _ _ _ _ h => h

theorem then_still {x : Emission α} {f : α → Emission β} (hx : Emits x s u S)
    (hf : ∀ a, Still (f a)) : Emits (x >>= f) s u S :=
  hx.bind hf (fun _ _ _ h => h) fun _ _ _ h => h.elim

/-- An instruction, then the rest. -/
theorem after_push {f : ℕ → Emission β} {inst : Inst} (hf : ∀ a, Emits (f a) s u S) (h : T 0 0)
    (hS : ∀ p t, S p t → T (p + 1) t) : Emits (push inst >>= f) (s + 1) u T :=
  ((push_emits inst).bind hf
    (fun p t _ hpt => by
      rw [hpt.1, hpt.2]
      exact h)
    fun p t _ ht => by
      rw [Nat.add_comm 1, Nat.zero_add]
      exact hS p t ht).cast (Nat.add_comm 1 s) (Nat.zero_add u) fun _ _ _ _ h => h

theorem then_push {x : Emission Unit} {f : ℕ → Emission β} {inst : Inst} (hx : Emits x s u S)
    (hf : ∀ a, Still (f a)) (hS : ∀ p t, S p t → T p t) (h : T s u) :
    Emits (x >>= fun _ => push inst >>= f) (s + 1) u T :=
  hx.bind (fun _ => (push_emits inst).then_still hf) (fun p t _ => hS p t) fun p t _ hpt => by
    rw [hpt.1, hpt.2]
    exact h

theorem emitInst (inst : Inst) : Emits (emitInst inst) 1 0 fun p t => p = 0 ∧ t = 0 :=
  (push_emits inst).then_still fun _ => pure_still ()

theorem call (hx : Emits x s u S) (hS : ∀ p t, S p t → T p (t + 1)) :
    Emits (do called; x) s (u + 1) T :=
  (called_emits.bind (fun _ => hx) (fun _ _ _ h => h.elim) fun p t _ h => by
    rw [Nat.zero_add, Nat.add_comm 1]
    exact hS p t h).cast (Nat.zero_add s) (Nat.add_comm 1 u) fun _ _ _ _ h => h

theorem emitQuest (greedy : Bool) (hx : Emits x s u S) (h : T 0 0)
    (hS : ∀ p t, S p t → T (p + 1) t) : Emits (emitQuest x greedy) (s + 1) u T :=
  after_push (fun _ => after_still here_still fun _ =>
    hx.then_still fun _ => after_still here_still fun _ => patch_still _ _) h hS

theorem emitPlus (greedy : Bool) (hx : Emits x s u S) (hS : ∀ p t, S p t → T p t) (h : T s u) :
    Emits (emitPlus x greedy) (s + 1) u T :=
  after_still here_still fun _ =>
    hx.then_push (fun _ => after_still here_still fun _ => patch_still _ _) hS h

theorem emitLoop (greedy : Bool) (hx : Emits x s u S) (h : T 0 0)
    (hS : ∀ p t, S p t → T (p + 1) t) (hlast : T (s + 1) u) :
    Emits (emitLoop x greedy) (s + 2) u T :=
  after_push (S := fun p t => S p t ∨ p = s ∧ t = u)
    (fun _ => after_still here_still fun _ =>
      hx.bind (fun _ => (emitInst _).then_still fun _ => after_still here_still fun _ =>
        patch_still _ _) (fun p t _ hpt => .inl hpt)
        fun p t _ hpt => .inr (by rw [hpt.1, hpt.2]; exact ⟨rfl, rfl⟩)) h
    fun p t hpt => by
      rcases hpt with hpt | ⟨rfl, rfl⟩
      · exact hS p t hpt
      · exact hlast

theorem emitAlt (hx : Emits x s u S) (hy : Emits y s' u' S') (h : T 0 0)
    (hS : ∀ p t, S p t → T (p + 1) t) (hmid : T (s + 1) u)
    (hS' : ∀ p t, S' p t → T (s + p + 2) (u + t)) :
    Emits (emitAlt x y) (s + s' + 2) (u + u') T := by
  have hright : ∀ jmp split lx : ℕ, Emits (do
      let ly ← here
      y
      let lend ← here
      patch split (.split lx ly)
      patch jmp (.jmp lend)) s' u' S' := fun jmp split lx =>
    after_still here_still fun ly => hy.then_still fun _ => after_still here_still fun lend =>
      after_still (patch_still _ _) fun _ => patch_still _ _
  have hbody : ∀ split lx : ℕ, Emits (do
      x
      let jmp ← push (.jmp 0)
      let ly ← here
      y
      let lend ← here
      patch split (.split lx ly)
      patch jmp (.jmp lend)) (s + (s' + 1)) (u + u') (fun p t => T (p + 1) t) := fun split lx =>
    hx.bind (fun _ => after_push (T := fun p t => T (s + p + 1) (u + t))
      (fun jmp => hright jmp split lx) hmid hS')
      (fun p t _ => hS p t) fun _ _ _ hpt => hpt
  exact (after_push (fun split => after_still here_still fun lx => hbody split lx) h
    fun _ _ hpt => hpt).cast (by omega) rfl fun _ _ _ _ hpt => hpt

theorem emitGroup (hx : Emits x s u S) (i : ℕ) (h : T 0 0) (hS : ∀ p t, S p t → T (p + 1) t)
    (hlast : T (s + 1) u) : Emits (emitGroup x (some i)) (s + 2) u T := by
  have hbody : Emits (do x; Regex.emitInst (.save (2 * i + 1))) (s + 1) u
      fun p t => T (p + 1) t :=
    hx.bind (fun _ => emitInst _) (fun p t _ => hS p t) fun p t _ hpt => by
      rw [hpt.1, hpt.2]
      exact hlast
  exact ((emitInst _).bind (fun _ => hbody)
    (fun p t _ hpt => by
      rw [hpt.1, hpt.2]
      exact h)
    fun p t _ hpt => by
      rw [Nat.add_comm 1, Nat.zero_add]
      exact hpt).cast (by omega) (Nat.zero_add u) fun _ _ _ _ hpt => hpt

/-- Copies: one that stops has the earlier ones before it. -/
theorem times (n : ℕ) (hx : Emits x s u S)
    (hS : ∀ k p t, k < n → p < s → S p t → T (k * s + p) (k * u + t)) :
    Emits (times n x) (n * s) (n * u) T := by
  induction n generalizing T with
  | zero =>
    rw [Nat.zero_mul, Nat.zero_mul]
    exact (pure_still ()).cast rfl rfl fun _ _ _ _ h => h.elim
  | succ n ih =>
    have hrest : Emits (Regex.times n x) (n * s) (n * u) fun p t => T (s + p) (u + t) :=
      ih fun k p t hk hp hpt => by
        have := hS (k + 1) p t (Nat.succ_lt_succ hk) hp hpt
        rw [Nat.succ_mul, Nat.succ_mul] at this
        convert this using 1 <;> omega
    refine (hx.bind (fun _ => hrest) (fun p t hp hpt => ?_) fun _ _ _ hpt => hpt).cast ?_ ?_
      fun _ _ _ _ hpt => hpt
    · have := hS 0 p t (Nat.succ_pos n) hp hpt
      rwa [Nat.zero_mul, Nat.zero_mul, Nat.zero_add, Nat.zero_add] at this
    · rw [Nat.succ_mul, Nat.add_comm]
    · rw [Nat.succ_mul, Nat.add_comm]

end Emits

section Short

variable {P : ℕ → Prop} {x : Emission Unit} {n s u : ℕ}

theorem short_add {p t a b : ℕ} (h : a ≤ n * b) (ht : t + 2 ≤ n * (p + 2)) :
    a + t + 2 ≤ n * (b + p + 2) := by
  rw [Nat.add_assoc b, Nat.mul_add]
  omega

theorem quest_emits (greedy : Bool) (hn : 0 < n)
    (hx : Emits x s u fun p t => P p → t + 1 ≤ n * (p + 2)) :
    Emits (do called; emitQuest x greedy) (s + 1) (u + 1)
      fun p t => (1 ≤ p → P (p - 1)) → t + 2 ≤ (n + 1) * (p + 2) :=
  (hx.emitQuest greedy (T := fun p t => (1 ≤ p → P (p - 1)) → t + 3 ≤ (n + 1) * (p + 2))
    (fun _ => by omega) fun p t h hP => by
      have := h (hP (Nat.succ_pos p))
      have hmul : (n + 1) * (p + 1 + 2) = n * (p + 2) + n + (p + 3) := by ring
      omega).call fun _ _ h => h

theorem star_emits (b greedy : Bool) (hn : 0 < n)
    (hx : Emits x s u fun p t => P p → t + 1 ≤ n * (p + 2)) (hu : P s → u ≤ n * (s + 1)) :
    Emits (do called; emitStar x b greedy) (s + 2) (u + starCalls b)
      fun p t => (1 ≤ p → P (p - 1)) → t + 2 ≤ (n + 1) * (p + 2) := by
  cases b with
  | false =>
    refine (hx.emitLoop greedy (T := fun p t => (1 ≤ p → P (p - 1)) → t + 3 ≤ (n + 1) * (p + 2))
      (fun _ => by omega) (fun p t h hP => ?_) fun hP => ?_).call fun _ _ h => h
    · have := h (hP (Nat.succ_pos p))
      have hmul : (n + 1) * (p + 1 + 2) = n * (p + 2) + n + (p + 3) := by ring
      omega
    · have := hu (hP (Nat.succ_pos s))
      have hmul : (n + 1) * (s + 1 + 2) = n * (s + 1) + 2 * n + (s + 3) := by ring
      omega
  | true =>
    have hplus : Emits (do called; emitPlus x greedy) (s + 1) (u + 1)
        fun p t => P p → t + 4 ≤ (n + 1) * (p + 3) :=
      (hx.emitPlus greedy (T := fun p t => P p → t + 5 ≤ (n + 1) * (p + 3))
        (fun p t h hP => by
          have := h hP
          have hmul : (n + 1) * (p + 3) = n * (p + 2) + n + (p + 3) := by ring
          omega)
        (fun hP => by
          have := hu hP
          have hmul : (n + 1) * (s + 3) = n * (s + 1) + 2 * n + (s + 3) := by ring
          omega)).call fun _ _ h => h
    have hquest := (hplus.emitQuest greedy
      (T := fun p t => (1 ≤ p → P (p - 1)) → t + 4 ≤ (n + 1) * (p + 2)) (fun _ => by omega)
      fun _ _ h hP => h (hP (Nat.succ_pos _))).call
      (T := fun p t => (1 ≤ p → P (p - 1)) → t + 3 ≤ (n + 1) * (p + 2)) fun _ _ h => h
    exact hquest.call fun _ _ h => h

/-- Whether the copies of a counted repeat are paid where `p` instructions can be pushed. -/
def RepeatPaid (P : ℕ → Prop) (s min : ℕ) (max : Option ℕ) (p : ℕ) : Prop :=
  if min = 0 then max = some 0 ∨ (1 ≤ p → P (p - 1)) else P p ∧ (0 < s ∨ min = 1 ∧ max = some 1)

theorem repeat_emits (b greedy : Bool) (min : ℕ) (max : Option ℕ) (hn : 0 < n)
    (hx : Emits x s u fun p t => P p → t + 1 ≤ n * (p + 2)) (hmono : ∀ {p p'}, P p → p' ≤ p → P p')
    (hu : ∀ {p}, P p → s ≤ p → Proportion n s u) :
    Emits (emitRepeat x b min max greedy)
      (min * s + tailSize s min max) (min * u + tailCalls u b min max)
      fun p t => RepeatPaid P s min max p → t + 2 ≤ (n + 1) * (p + 2) := by
  -- a mandatory copy that stops has emitted, so the ones before it are paid for
  have hcopies : Emits (times min x) (min * s) (min * u)
      fun p t => RepeatPaid P s min max p → t + 2 ≤ (n + 1) * (p + 2) := by
    refine hx.times min fun k p t hk hp hpt hP => ?_
    rw [RepeatPaid, if_neg (Nat.ne_zero_of_lt hk)] at hP
    have := hpt (hmono hP.1 (Nat.le_add_left p _))
    have hle : k * u ≤ (n + 1) * (k * s) := by
      rcases Nat.eq_zero_or_pos k with rfl | hpos
      · omega
      · have hs : s ≤ k * s := Nat.le_mul_of_pos_left s hpos
        exact (hu hP.1 (by omega)).copies k (.inl (Nat.zero_lt_of_lt hp)) (Nat.zero_le ((n + 1) * 0))
    refine short_add hle ?_
    rw [Nat.succ_mul]
    omega
  -- behind the mandatory copies, which are paid for where there are any
  have hbehind : ∀ {p}, (min ≠ 0 → 0 < s) → RepeatPaid P s min max (min * s + p) → max ≠ some 0 →
      min * u ≤ (n + 1) * (min * s) ∧ (1 ≤ p → P (p - 1)) := by
    intro p hs hP hmax
    rw [RepeatPaid] at hP
    split at hP
    case isTrue hmin =>
      rw [hmin, Nat.zero_mul, Nat.zero_add] at hP
      exact ⟨by rw [hmin]; omega, hP.resolve_left hmax⟩
    case isFalse hmin =>
      have hcopy : s ≤ min * s := Nat.le_mul_of_pos_left s (Nat.pos_of_ne_zero hmin)
      exact ⟨(hu hP.1 (by omega)).copies min (.inl (hs hmin)) (Nat.zero_le ((n + 1) * 0)),
        fun _ => hmono hP.1 (by omega)⟩
  cases max with
  | none =>
    refine hcopies.bind (fun _ => star_emits b greedy hn hx fun hP => (hu hP (Nat.le_refl s)).le hn)
      (fun _ _ _ h => h) fun p t _ hpt hP => ?_
    have hs : min ≠ 0 → 0 < s := fun hmin => by
      rw [RepeatPaid, if_neg hmin] at hP
      exact hP.2.resolve_right fun h => absurd h.2 (Option.some_ne_none 1).symm
    obtain ⟨hle, hP⟩ := hbehind hs hP (Option.some_ne_none 0).symm
    exact short_add hle (hpt hP)
  | some m =>
    have hoptional : Emits (times (m - min) (do called; emitQuest x greedy))
        ((m - min) * (s + 1)) ((m - min) * (u + 1))
        fun p t => (1 ≤ p → P (p - 1)) → t + 2 ≤ (n + 1) * (p + 2) := by
      refine (quest_emits greedy hn hx).times (m - min) fun k p t _ _ hpt hP => ?_
      have := hpt fun hp => hmono (hP (by omega)) (by omega)
      refine short_add ?_ this
      rcases Nat.eq_zero_or_pos k with rfl | hpos
      · omega
      · have hs : s + 1 ≤ k * (s + 1) := Nat.le_mul_of_pos_left _ hpos
        calc k * (u + 1) ≤ k * ((n + 1) * (s + 1)) :=
              Nat.mul_le_mul_left k ((hu (hP (by omega)) (by omega)).quest_le hn)
          _ = (n + 1) * (k * (s + 1)) := Nat.mul_left_comm _ _ _
    refine hcopies.bind (fun _ => hoptional) (fun _ _ _ h => h) fun p t hp hpt hP => ?_
    rw [tailSize] at hp
    have hmax : some m ≠ some 0 := by
      rintro ⟨⟩
      rw [Nat.zero_sub, Nat.zero_mul] at hp
      exact absurd hp (Nat.not_lt_zero p)
    have hs : min ≠ 0 → 0 < s := fun hmin => by
      rw [RepeatPaid, if_neg hmin] at hP
      refine hP.2.resolve_right fun hsingle => ?_
      -- `{1}` has no optional copy to stop in
      obtain ⟨hone, hmax⟩ := hsingle
      cases hmax
      rw [hone, Nat.sub_self, Nat.zero_mul] at hp
      exact absurd hp (Nat.not_lt_zero p)
    obtain ⟨hle, hP⟩ := hbehind hs hP hmax
    exact short_add hle (hpt hP)

end Short

/-- The calls of an emission that stops after `p` instructions, where no copy reached is free. -/
def Node.Short (n : Node) (p t : ℕ) : Prop := n.paid p = true → t + 1 ≤ n.nodes * (p + 2)

theorem leaf_emits {inst : Inst} {n : Node} (hn : n.nodes = 1) :
    Emits (do called; emitInst inst) 1 1 n.Short :=
  (Emits.emitInst inst).call fun p t hpt _ => by
    rw [hn, hpt.1, hpt.2]

mutual
/-- Each arm of `Compiler::emit`, over what its bodies spend. -/
theorem emit_emits : ∀ n : Node, Emits (emit n) n.size n.unrolled n.Short
  | .empty => called_emits.cast rfl rfl fun _ _ _ _ h => h.elim
  | .char _ | .any | .anchorStart | .anchorEnd | .lineStart | .lineEnd => leaf_emits rfl
  | .class_ cc => (Emits.after_still (pushClass_still cc) fun k =>
      (Emits.emitInst (.class_ k)).cast rfl rfl fun _ _ _ _ h => h).call fun p t hpt _ => by
        rw [hpt.1, hpt.2, Node.nodes]
  | .concat nodes => (emitAll_emits nodes).call fun p t h hpaid => by
      rw [Node.paid] at hpaid
      have := h hpaid
      rw [Node.nodes, Nat.add_mul]
      omega
  | .alt a b => by
      rw [Node.size, Node.unrolled]
      refine ((emit_emits a).emitAlt (emit_emits b) (T := fun p t =>
        (Node.alt a b).paid p = true → t + 2 ≤ (Node.alt a b).nodes * (p + 2))
        (fun _ => ?_) (fun p t h hpaid => ?_) (fun hpaid => ?_) fun p t h hpaid => ?_).call
        fun _ _ h => h
      · rw [Node.nodes]
        omega
      all_goals
        simp only [Node.paid, Bool.and_eq_true, after_eq] at hpaid
        rw [Node.nodes]
      · have := h (hpaid.1 (Nat.succ_pos p))
        have hmul : (1 + a.nodes + b.nodes) * (p + 1 + 2) =
            p + 3 + (a.nodes * (p + 2) + a.nodes + b.nodes * (p + 3)) := by ring
        omega
      · have := (proportion (hpaid.1 (Nat.succ_pos _)) (Nat.le_refl a.size)).le a.nodes_pos
        have hmul : (1 + a.nodes + b.nodes) * (a.size + 1 + 2) =
            a.size + 3 + (a.nodes * (a.size + 1) + 2 * a.nodes + b.nodes * (a.size + 3)) := by ring
        omega
      · have hu := (proportion (hpaid.1 (by omega)) (by omega)).le a.nodes_pos
        have hright := hpaid.2 (by omega)
        rw [show a.size + p + 2 - (a.size + 2) = p by omega] at hright
        have := h hright
        have hmul : (1 + a.nodes + b.nodes) * (a.size + p + 2 + 2) = a.size + p + 4 +
            (a.nodes * (a.size + 1) + a.nodes * (p + 3) +
              (b.nodes * (p + 2) + b.nodes * (a.size + 2))) := by ring
        omega
  | .star sub greedy => by
      rw [Node.size, Node.unrolled]
      have hstar := star_emits (P := fun p => sub.paid p = true) (nullable sub) greedy sub.nodes_pos
        (emit_emits sub) fun hpaid => (proportion hpaid (Nat.le_refl _)).le sub.nodes_pos
      exact hstar.cast rfl rfl fun p t _ _ h hpaid => by
        rw [Node.paid, after_eq] at hpaid
        have := h hpaid
        rw [Node.nodes, Nat.add_comm 1]
        omega
  | .plus sub greedy => by
      rw [Node.size, Node.unrolled]
      refine ((emit_emits sub).emitPlus greedy (T := fun p t =>
        sub.paid p = true → t + 2 ≤ (sub.nodes + 1) * (p + 2))
        (fun p t h hpaid => ?_) fun hpaid => ?_).call fun p t h hpaid => ?_
      · have := h hpaid
        rw [Nat.succ_mul]
        omega
      · have := (proportion hpaid (Nat.le_refl _)).le sub.nodes_pos
        have hmul : (sub.nodes + 1) * (sub.size + 2) =
            sub.nodes * (sub.size + 1) + sub.nodes + (sub.size + 2) := by ring
        omega
      · rw [Node.paid] at hpaid
        rw [Node.nodes, Nat.add_comm 1]
        exact h hpaid
  | .quest sub greedy => by
      rw [Node.size, Node.unrolled]
      have hquest := quest_emits (P := fun p => sub.paid p = true) greedy sub.nodes_pos (emit_emits sub)
      exact hquest.cast rfl rfl fun p t _ _ h hpaid => by
        rw [Node.paid, after_eq] at hpaid
        have := h hpaid
        rw [Node.nodes, Nat.add_comm 1]
        omega
  | .repeat_ sub min max greedy => by
      rw [Node.size, Node.unrolled]
      refine (repeat_emits (P := fun p => sub.paid p = true) (nullable sub) greedy min max
        sub.nodes_pos (emit_emits sub) paid_mono proportion).call fun p t h hpaid => ?_
      rw [Node.nodes, Nat.add_comm 1]
      exact h (paid_repeat.1 hpaid)
  | .group sub none => (emit_emits sub).call fun p t h hpaid => by
      rw [Node.paid] at hpaid
      have := h hpaid
      rw [Node.nodes, Nat.add_mul]
      omega
  | .group sub (some i) => by
      rw [Node.size, Node.unrolled]
      refine ((emit_emits sub).emitGroup i (T := fun p t =>
        (1 ≤ p → sub.paid (p - 1) = true) → t + 2 ≤ (sub.nodes + 1) * (p + 2)) (fun _ => by omega)
        (fun p t h hpaid => ?_) fun hpaid => ?_).call fun p t h hpaid => ?_
      · have := h (hpaid (Nat.succ_pos p))
        have hmul : (sub.nodes + 1) * (p + 1 + 2) =
            sub.nodes * (p + 2) + sub.nodes + (p + 3) := by ring
        omega
      · have := (proportion (hpaid (Nat.succ_pos _)) (Nat.le_refl sub.size)).le sub.nodes_pos
        have hmul : (sub.nodes + 1) * (sub.size + 1 + 2) =
            sub.nodes * (sub.size + 1) + 2 * sub.nodes + (sub.size + 3) := by ring
        omega
      · rw [Node.paid, after_eq] at hpaid
        rw [Node.nodes, Nat.add_comm 1]
        exact h hpaid
theorem emitAll_emits : ∀ ns : List Node, Emits (emitAll ns) (sizeAll ns) (unrolledAll ns)
    fun p t => paidAll ns p = true → t + 1 ≤ nodesAll ns * (p + 2)
  | [] => (pure_still ()).cast rfl rfl fun _ _ _ _ h => h.elim
  | n :: ns => by
      rw [sizeAll, unrolledAll]
      refine (emit_emits n).bind (fun _ => emitAll_emits ns) (fun p t _ h hpaid => ?_)
        fun p t _ h hpaid => ?_
      all_goals
        simp only [paidAll, Bool.and_eq_true, after_eq] at hpaid
        rw [nodesAll]
      · have := h hpaid.1
        rw [Nat.add_mul]
        omega
      · have hu := (proportion hpaid.1 (Nat.le_add_right _ p)).le n.nodes_pos
        have hrest := hpaid.2 (Nat.le_add_right _ p)
        rw [Nat.add_sub_cancel_left] at hrest
        have := h hrest
        have hmul : (n.nodes + nodesAll ns) * (n.size + p + 2) = n.nodes * (n.size + 1) +
            n.nodes * (p + 1) + (nodesAll ns * (p + 2) + nodesAll ns * n.size) := by ring
        omega
end

theorem emitInsts_emits : ∀ is : List Inst, Emits (emitInsts is) is.length 0 fun _ t => t = 0
  | [] => (pure_still ()).cast rfl rfl fun _ _ _ _ h => h.elim
  | i :: is =>
    ((Emits.emitInst i).bind (fun _ => emitInsts_emits is) (fun _ _ _ h => h.2)
      fun p t _ h => by rw [h]).cast (Nat.add_comm 1 _) rfl fun _ _ _ _ h => h

/-- An emission that stops in the wrapper or the root has its calls paid for at `nodes` an instruction,
    where no copy that the root reaches behind the wrapper is free. -/
theorem emitProgram_emits (w : Wrapper) (root : Node) :
    Emits (emitProgram w root) (w.head.length + (root.size + 2)) root.unrolled
      fun p t => root.paid (p - w.head.length) = true → t ≤ root.nodes * p := by
  have hroot : Emits (do emit root; emitInsts [.save 1, .match_]) (root.size + 2) root.unrolled
      fun p t => root.paid p = true → t ≤ root.nodes * (p + 2) :=
    (emit_emits root).bind (fun _ => emitInsts_emits _)
      (fun p t _ h hpaid => Nat.le_of_succ_le (h hpaid)) fun p t _ h hpaid => by
        have hu := (proportion hpaid (Nat.le_add_right _ p)).le root.nodes_pos
        have hle : root.nodes * (root.size + 1) ≤ root.nodes * (root.size + p + 2) :=
          Nat.mul_le_mul_left _ (by omega)
        omega
  have hhead : 2 ≤ w.head.length := by cases w <;> decide
  refine ((emitInsts_emits w.head).bind (fun _ => hroot) (fun p t _ h _ => ?_)
    fun p t _ h hpaid => ?_).cast rfl (Nat.zero_add _) fun _ _ _ _ h => h
  · rw [h]
    exact Nat.zero_le _
  · rw [Nat.add_sub_cancel_left] at hpaid
    rw [Nat.zero_add]
    exact Nat.le_trans (h hpaid) (Nat.mul_le_mul_left _ (by omega))

/-- The tree's program, with its wrapper, is within the cap. -/
def Node.fits (root : Node) (w : Wrapper) : Prop :=
  w.head.length + (root.size + 2) ≤ maxRegexProgram

/-- No copy of an empty body is made for nothing before the program is full, or the unrolled tree is small. -/
def Node.frugal (root : Node) (w : Wrapper) : Prop :=
  root.paid (maxRegexProgram - w.head.length) = true ∨ root.unrolled ≤ root.nodes * (maxRegexProgram + 1)

/-- The result of a compilation is a program within the cap or the error. -/
def CappedResult : Except RegexError Program → Prop
  | .ok prog => prog.insts.length ≤ maxRegexProgram
  | .error e => e = .tooComplex

section Root

variable (w : Wrapper) (root : Node) (ngroups : ℕ)

theorem compileRoot_capped : CappedResult (compileRoot w root ngroups).1 := by
  have hrun := emitProgram_emits w root ⟨[], [], 0⟩ (Nat.zero_le _)
  rw [compileRoot]
  cases h : emitProgram w root ⟨[], [], 0⟩ with
  | mk r c =>
    rw [h] at hrun
    cases r with
    | ok _ => exact hrun.1
    | error e => exact hrun.1.1

/-- A program that fits is emitted whole. -/
theorem compileRoot_calls_of_fits (hfits : root.fits w) :
    (compileRoot w root ngroups).2.calls = root.unrolled := by
  have hrun := emitProgram_emits w root ⟨[], [], 0⟩ (Nat.zero_le _)
  rw [compileRoot]
  cases h : emitProgram w root ⟨[], [], 0⟩ with
  | mk r c =>
    rw [h] at hrun
    cases r with
    | ok _ =>
      obtain ⟨-, d, hd, rfl⟩ := hrun
      have hcalls := congrArg Prod.snd hd
      simpa [Compiler.spent] using hcalls
    | error e =>
      obtain ⟨⟨-, hfull⟩, d, hd, hlt, -⟩ := hrun
      have hinsts : c.insts.length = d.1 := by
        have := congrArg Prod.fst hd
        simpa [Compiler.spent] using this
      rw [Node.fits] at hfits
      omega

theorem compileRoot_calls_le (hfrugal : root.frugal w) :
    (compileRoot w root ngroups).2.calls ≤ root.nodes * (maxRegexProgram + 1) := by
  have hrun := emitProgram_emits w root ⟨[], [], 0⟩ (Nat.zero_le _)
  by_cases hfits : root.fits w
  · rw [compileRoot_calls_of_fits w root ngroups hfits]
    rw [Node.fits] at hfits
    rcases hfrugal with hpaid | hle
    · exact Nat.le_trans ((proportion hpaid (by omega)).le root.nodes_pos)
        (Nat.mul_le_mul_left _ (by omega))
    · exact hle
  · rw [compileRoot]
    cases h : emitProgram w root ⟨[], [], 0⟩ with
    | mk r c =>
      rw [h] at hrun
      cases r with
      | ok _ =>
        obtain ⟨hcap, d, hd, rfl⟩ := hrun
        have hinsts := congrArg Prod.fst hd
        simp only [Compiler.spent, List.length_nil, Prod.fst_add, Nat.zero_add] at hinsts
        rw [Capped, hinsts] at hcap
        exact absurd hcap hfits
      | error e =>
        obtain ⟨⟨-, hfull⟩, d, hd, -, hle, hshort⟩ := hrun
        have hinsts : c.insts.length = d.1 := by
          have := congrArg Prod.fst hd
          simpa [Compiler.spent] using this
        have hcalls : c.calls = d.2 := by
          have := congrArg Prod.snd hd
          simpa [Compiler.spent] using this
        change c.calls ≤ _
        rcases hfrugal with hpaid | hsmall
        · rw [← hinsts, hfull] at hshort
          have hd2 := hshort hpaid
          rw [hcalls, Nat.mul_succ]
          omega
        · exact hcalls ▸ Nat.le_trans hle hsmall

end Root

/-- A compilation does bounded work: its result is a program within the cap or the error, after at most
    `nodes × (MAX_REGEX_PROGRAM + 1)` calls of `Compiler::emit`; a pattern that does not parse makes no
    call. -/
def BoundedWork (pattern : List Char) (mode : Mode) (w : Wrapper) : Prop :=
  match parse mode pattern with
  | .error e => compileWrapped pattern mode w = (.error e, 0) ∧ e ≠ .stuck
  | .ok (root, _) =>
    CappedResult (compileWrapped pattern mode w).1 ∧
      (compileWrapped pattern mode w).2 ≤ root.nodes * (maxRegexProgram + 1)

/-- The pattern's tree is frugal. -/
def Frugal (pattern : List Char) (mode : Mode) (w : Wrapper) : Prop :=
  ∀ root ngroups, parse mode pattern = .ok (root, ngroups) → root.frugal w

/-- The pattern's program fits. -/
def Fits (pattern : List Char) (mode : Mode) (w : Wrapper) : Prop :=
  ∀ root ngroups, parse mode pattern = .ok (root, ngroups) → root.fits w

theorem boundedWork_iff {pattern : List Char} {mode : Mode} {root : Node} {ngroups : ℕ}
    (h : parse mode pattern = .ok (root, ngroups)) (w : Wrapper) :
    BoundedWork pattern mode w ↔ CappedResult (compileRoot w root ngroups).1 ∧
      (compileRoot w root ngroups).2.calls ≤ root.nodes * (maxRegexProgram + 1) := by
  rw [BoundedWork, compileWrapped, h]

/-- A compilation's work is bounded where no counted repeat that it reaches before the cap copies an empty
    body for nothing, or the unrolled tree is small; for a pattern whose program fits the cap that is
    exactly when. -/
theorem compileWrapped_bounded (pattern : List Char) (mode : Mode) (w : Wrapper) :
    (Frugal pattern mode w → BoundedWork pattern mode w) ∧
      (Fits pattern mode w → BoundedWork pattern mode w → Frugal pattern mode w) := by
  cases hp : parse mode pattern with
  | error e =>
    refine ⟨fun _ => ?_, fun _ _ root ngroups h => ?_⟩
    · rw [BoundedWork, compileWrapped, hp]
      exact ⟨rfl, fun he => parse_ne_stuck mode pattern (he ▸ hp)⟩
    · rw [hp] at h
      cases h
  | ok v =>
    obtain ⟨root, ngroups⟩ := v
    rw [boundedWork_iff hp]
    refine ⟨fun hfrugal => ⟨compileRoot_capped w root ngroups,
      compileRoot_calls_le w root ngroups (hfrugal root ngroups hp)⟩, ?_⟩
    rintro hfits ⟨-, hcalls⟩ root' ngroups' h
    rw [hp] at h
    cases h
    have hexact := compileRoot_calls_of_fits w root ngroups (hfits root ngroups hp)
    exact .inr (hexact ▸ hcalls)

/-- `(?:(?:){9999}){9999}`: five nodes, and an empty program. -/
def idlePattern : List Char := ['(', '?', ':', '(', '?', ':', ')', '\x7b', '9', '9', '9', '9', '\x7d',
  ')', '\x7b', '9', '9', '9', '9', '\x7d']

def idleRoot : Node :=
  .repeat_ (.group (.repeat_ (.group .empty none) 9999 (some 9999) true) none) 9999 (some 9999) true

theorem parse_idlePattern : parse .plain idlePattern = .ok (idleRoot, 0) := rfl

/-- Some 2·10⁸ calls emit nothing. -/
theorem compile_idle_unbounded : ¬ BoundedWork idlePattern .plain .search := by
  rw [boundedWork_iff parse_idlePattern]
  rintro ⟨-, hcalls⟩
  rw [compileRoot_calls_of_fits .search idleRoot 0 (by unfold Node.fits; decide)] at hcalls
  exact absurd hcalls (by decide)

/-- Behind a repeat that fills the program the same copies are not reached. -/
example : (Node.concat [.repeat_ (.char 'a') 32768 (some 32768) true, idleRoot]).frugal .search :=
  .inl (by decide)

end Jed.Regex
