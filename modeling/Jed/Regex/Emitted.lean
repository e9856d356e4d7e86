import Jed.Regex.Groups

/-!
# What an emission adds

The code of a tree jumps within itself or to its end, saves the slots of numbered groups only and reads
classes of the table; the compiled program is that code in its wrapper.
-/

namespace Jed.Regex

open Jed.Runs

/-- An instruction with its targets between `lo` and `hi`, its class below `k` and its slot that of a
    group up to `g`. -/
def Inst.Inside (lo hi k g : ℕ) : Inst → Prop
  | .split x y => (lo ≤ x ∧ x ≤ hi) ∧ lo ≤ y ∧ y ≤ hi
  | .jmp x => lo ≤ x ∧ x ≤ hi
  | .save n => 2 ≤ n ∧ n < 2 * (g + 1)
  | .class_ i => i < k
  | .match_ => False
  | .char _ | .any | .anyChar | .assertStart | .assertEnd | .assertLineStart | .assertLineEnd
  | .gate => True

theorem Inst.Inside.mono {lo lo' hi hi' k k' g : ℕ} {i : Inst} (h : i.Inside lo hi k g)
    (hlo : lo' ≤ lo) (hhi : hi ≤ hi') (hk : k ≤ k') : i.Inside lo' hi' k' g := by
  cases i with
  | split x y =>
    exact ⟨⟨Nat.le_trans hlo h.1.1, Nat.le_trans h.1.2 hhi⟩, Nat.le_trans hlo h.2.1,
      Nat.le_trans h.2.2 hhi⟩
  | jmp x => exact ⟨Nat.le_trans hlo h.1, Nat.le_trans h.2 hhi⟩
  | class_ i => exact Nat.lt_of_lt_of_le h hk
  | _ => exact h

/-- `c'` is `c` with code added that is inside `lo` and the end of it. -/
def Adds (lo g : ℕ) (c c' : Compiler) : Prop :=
  c.classes.length ≤ c'.classes.length ∧ ∃ code, c'.insts = c.insts ++ code ∧
    ∀ i ∈ code, i.Inside lo c'.insts.length c'.classes.length g

namespace Adds

variable {lo lo' g : ℕ} {c c₁ c₂ : Compiler}

theorem refl (c : Compiler) : Adds lo g c c :=
  ⟨Nat.le_refl _, [], (List.append_nil _).symm, fun _ h => nomatch h⟩

theorem length_le (h : Adds lo g c c₁) : c.insts.length ≤ c₁.insts.length := by
  obtain ⟨-, code, hcode, -⟩ := h
  rw [hcode, List.length_append]
  exact Nat.le_add_right _ _

theorem trans (h : Adds lo g c c₁) (h' : Adds lo g c₁ c₂) : Adds lo g c c₂ := by
  have hlen := h'.length_le
  obtain ⟨hk, code, hcode, hin⟩ := h
  obtain ⟨hk', code', hcode', hin'⟩ := h'
  refine ⟨Nat.le_trans hk hk', code ++ code', by rw [hcode', hcode, List.append_assoc],
    fun i hi => ?_⟩
  rcases List.mem_append.1 hi with hi | hi
  · exact (hin i hi).mono (Nat.le_refl _) hlen hk'
  · exact hin' i hi

theorem lower (h : Adds lo g c c₁) (hlo : lo' ≤ lo) : Adds lo' g c c₁ := by
  obtain ⟨hk, code, hcode, hin⟩ := h
  exact ⟨hk, code, hcode, fun i hi => (hin i hi).mono hlo (Nat.le_refl _) (Nat.le_refl _)⟩

/-- A placeholder, code after it, and the placeholder replaced. -/
theorem patched {old : Inst} (new : Inst)
    (h : Adds lo g { c with insts := c.insts ++ [old] } c₁)
    (hnew : new.Inside lo c₁.insts.length c₁.classes.length g) :
    Adds lo g c { c₁ with insts := c₁.insts.set c.insts.length new } := by
  obtain ⟨hk, code, hcode, hin⟩ := h
  refine ⟨hk, new :: code, ?_, ?_⟩
  · change c₁.insts.set c.insts.length new = _
    rw [hcode]
    simp
  · intro i hi
    change i.Inside lo (c₁.insts.set c.insts.length new).length c₁.classes.length g
    rw [List.length_set]
    rcases List.mem_cons.1 hi with rfl | hi
    · exact hnew
    · exact hin i hi

theorem pushed {inst : Inst} (h : inst.Inside lo (c.insts.length + 1) c.classes.length g) :
    Adds lo g c { c with insts := c.insts ++ [inst] } := by
  refine ⟨Nat.le_refl _, [inst], rfl, fun i hi => ?_⟩
  rw [List.mem_singleton.1 hi, List.length_append]
  exact h

end Adds

/-- An emission that ends well adds code inside itself. -/
def AddsCode (g : ℕ) (x : Emission Unit) : Prop :=
  ∀ c c', x c = (.ok (), c') → Adds c.insts.length g c c'

theorem push_eq_ok {inst : Inst} {c c' : Compiler} {a : ℕ} (h : push inst c = (.ok a, c')) :
    a = c.insts.length ∧ c' = { c with insts := c.insts ++ [inst] } := by
  rw [push] at h
  split at h
  · cases h
  · cases h
    exact ⟨rfl, rfl⟩

theorem emitInst_eq_ok {inst : Inst} {c c' : Compiler} (h : emitInst inst c = (.ok (), c')) :
    c' = { c with insts := c.insts ++ [inst] } := by
  obtain ⟨a, c₁, hpush, hpure⟩ := bind_eq_ok h
  cases hpure
  exact (push_eq_ok hpush).2

theorem splitOf_inside {greedy : Bool} {x y lo hi k g : ℕ} (hx : lo ≤ x ∧ x ≤ hi)
    (hy : lo ≤ y ∧ y ≤ hi) : (splitOf greedy x y).Inside lo hi k g := by
  cases greedy with
  | true => exact ⟨hx, hy⟩
  | false => exact ⟨hy, hx⟩

namespace AddsCode

variable {g : ℕ} {x y : Emission Unit}

theorem call (hx : AddsCode g x) : AddsCode g (do called; x) := by
  intro c c' h
  obtain ⟨_, c₁, hcall, h⟩ := bind_eq_ok h
  cases hcall
  have hadd := hx _ c' h
  exact hadd

theorem then_ (hx : AddsCode g x) (hy : AddsCode g y) : AddsCode g (do x; y) := by
  intro c c' h
  obtain ⟨_, c₁, hcx, h⟩ := bind_eq_ok h
  have hadd := hx c c₁ hcx
  exact hadd.trans ((hy c₁ c' h).lower hadd.length_le)

theorem pure : AddsCode g (pure ()) := by
  intro c c' h
  cases h
  exact Adds.refl c

theorem emitInst {inst : Inst} (h : ∀ n k, inst.Inside n (n + 1) k g) :
    AddsCode g (emitInst inst) := by
  intro c c' hc
  rw [emitInst_eq_ok hc]
  exact Adds.pushed (h _ _)

theorem emitClass (cc : CharClass) : AddsCode g (emitClass cc) := by
  intro c c' h
  obtain ⟨k, c₁, hpush, h⟩ := bind_eq_ok h
  cases hpush
  rw [emitInst_eq_ok h]
  refine ⟨?_, [.class_ c.classes.length], rfl, fun i hi => ?_⟩
  · change c.classes.length ≤ (c.classes ++ [cc]).length
    rw [List.length_append]
    exact Nat.le_add_right _ _
  · rw [List.mem_singleton.1 hi]
    change c.classes.length < (c.classes ++ [cc]).length
    rw [List.length_append]
    exact Nat.lt_succ_self _

theorem emitQuest (greedy : Bool) (hx : AddsCode g x) : AddsCode g (emitQuest x greedy) := by
  intro c c' h
  obtain ⟨split, c₁, hpush, h⟩ := bind_eq_ok h
  obtain ⟨rfl, rfl⟩ := push_eq_ok hpush
  obtain ⟨l1, _, hhere, h⟩ := bind_eq_ok h
  cases hhere
  obtain ⟨_, c₂, hbody, h⟩ := bind_eq_ok h
  obtain ⟨l2, _, hhere, h⟩ := bind_eq_ok h
  cases hhere
  cases h
  have hadd := hx _ c₂ hbody
  have hlen := hadd.length_le
  simp only [List.length_append, List.length_cons, List.length_nil] at hadd hlen ⊢
  exact (hadd.lower (Nat.le_succ _)).patched _ (splitOf_inside (by omega) (by omega))

theorem emitPlus (greedy : Bool) (hx : AddsCode g x) : AddsCode g (emitPlus x greedy) := by
  intro c c' h
  obtain ⟨l1, _, hhere, h⟩ := bind_eq_ok h
  cases hhere
  obtain ⟨_, c₁, hbody, h⟩ := bind_eq_ok h
  obtain ⟨split, c₂, hpush, h⟩ := bind_eq_ok h
  obtain ⟨rfl, rfl⟩ := push_eq_ok hpush
  obtain ⟨l3, _, hhere, h⟩ := bind_eq_ok h
  cases hhere
  cases h
  have hadd := hx c c₁ hbody
  have hlen := hadd.length_le
  refine hadd.trans ((Adds.refl _).patched _ (splitOf_inside ?_ ?_))
  all_goals
    simp only [List.length_append, List.length_cons, List.length_nil]
    omega

theorem emitLoop (greedy : Bool) (hx : AddsCode g x) : AddsCode g (emitLoop x greedy) := by
  intro c c' h
  obtain ⟨l1, c₁, hpush, h⟩ := bind_eq_ok h
  obtain ⟨rfl, rfl⟩ := push_eq_ok hpush
  obtain ⟨l2, _, hhere, h⟩ := bind_eq_ok h
  cases hhere
  obtain ⟨_, c₂, hbody, h⟩ := bind_eq_ok h
  obtain ⟨_, c₃, hjmp, h⟩ := bind_eq_ok h
  rw [emitInst_eq_ok hjmp] at h
  obtain ⟨l3, _, hhere, h⟩ := bind_eq_ok h
  cases hhere
  cases h
  have hadd : Adds c.insts.length g _ c₂ := (hx _ c₂ hbody).lower (by simp)
  have hlen := hadd.length_le
  simp only [List.length_append, List.length_cons, List.length_nil] at hlen
  have hback : Adds c.insts.length g c₂ { c₂ with insts := c₂.insts ++ [.jmp c.insts.length] } :=
    Adds.pushed ⟨Nat.le_refl _, by omega⟩
  refine (hadd.trans hback).patched _ (splitOf_inside ?_ ?_)
  all_goals
    simp only [List.length_append, List.length_cons, List.length_nil]
    omega

theorem emitAlt (hx : AddsCode g x) (hy : AddsCode g y) : AddsCode g (emitAlt x y) := by
  intro c c' h
  obtain ⟨split, c₁, hpush, h⟩ := bind_eq_ok h
  obtain ⟨rfl, rfl⟩ := push_eq_ok hpush
  obtain ⟨lx, _, hhere, h⟩ := bind_eq_ok h
  cases hhere
  obtain ⟨_, c₂, hleft, h⟩ := bind_eq_ok h
  obtain ⟨jmp, c₃, hpush, h⟩ := bind_eq_ok h
  obtain ⟨rfl, rfl⟩ := push_eq_ok hpush
  obtain ⟨ly, _, hhere, h⟩ := bind_eq_ok h
  cases hhere
  obtain ⟨_, c₄, hright, h⟩ := bind_eq_ok h
  obtain ⟨lend, _, hhere, h⟩ := bind_eq_ok h
  cases hhere
  obtain ⟨_, c₅, hpatch, h⟩ := bind_eq_ok h
  cases hpatch
  cases h
  have hadd : Adds c.insts.length g _ c₂ := (hx _ c₂ hleft).lower (by simp)
  have hlen := hadd.length_le
  simp only [List.length_append, List.length_cons, List.length_nil] at hlen
  have hadd' : Adds c.insts.length g _ c₄ := (hy _ c₄ hright).lower (by
    simp only [List.length_append, List.length_cons, List.length_nil]
    omega)
  have hlen' := hadd'.length_le
  simp only [List.length_append, List.length_cons, List.length_nil] at hlen'
  -- the jump is patched inside the split's code, the split around it
  have hjmp := hadd'.patched (.jmp c₄.insts.length) ⟨by omega, Nat.le_refl _⟩
  have hsplit := (hadd.trans hjmp).patched
    (.split (c.insts.length + 1) (c₂.insts.length + 1)) (by
      simp only [Inst.Inside, List.length_set]
      omega)
  rw [List.set_comm _ _ (by omega)] at hsplit
  simpa only [List.length_append, List.length_cons, List.length_nil] using hsplit

theorem emitStar (b greedy : Bool) (hx : AddsCode g x) : AddsCode g (emitStar x b greedy) := by
  cases b with
  | true => exact (emitQuest greedy (emitPlus greedy hx).call).call
  | false => exact emitLoop greedy hx

theorem times (n : ℕ) (hx : AddsCode g x) : AddsCode g (times n x) := by
  induction n with
  | zero => exact pure
  | succ n ih => exact hx.then_ ih

theorem emitRepeat (b : Bool) (min : ℕ) (max : Option ℕ) (greedy : Bool) (hx : AddsCode g x) :
    AddsCode g (emitRepeat x b min max greedy) := by
  cases max with
  | none => exact (hx.times min).then_ (hx.emitStar b greedy).call
  | some m => exact (hx.times min).then_ ((hx.emitQuest greedy).call.times (m - min))

theorem emitGroup {i : ℕ} (hi : 1 ≤ i) (hg : i ≤ g) (hx : AddsCode g x) :
    AddsCode g (emitGroup x (some i)) :=
  have hopen : AddsCode g (Regex.emitInst (.save (2 * i))) :=
    emitInst fun _ _ => ⟨by omega, by omega⟩
  have hclose : AddsCode g (Regex.emitInst (.save (2 * i + 1))) :=
    emitInst fun _ _ => ⟨by omega, by omega⟩
  hopen.then_ (hx.then_ hclose)

end AddsCode

mutual
theorem emit_addsCode {g : ℕ} : ∀ {n : Node}, n.GroupsWithin g → AddsCode g (emit n)
  | .empty, _ => (AddsCode.pure (g := g)).call
  | .char _, _ | .any, _ | .anchorStart, _ | .anchorEnd, _ | .lineStart, _ | .lineEnd, _ =>
    AddsCode.call (AddsCode.emitInst fun _ _ => trivial)
  | .class_ cc, _ => (AddsCode.emitClass cc).call
  | .concat _, h => (emitAll_addsCode h).call
  | .alt _ _, h => ((emit_addsCode h.1).emitAlt (emit_addsCode h.2)).call
  | .star sub greedy, h => ((emit_addsCode (n := sub) h).emitStar (nullable sub) greedy).call
  | .plus sub greedy, h => ((emit_addsCode (n := sub) h).emitPlus greedy).call
  | .quest sub greedy, h => ((emit_addsCode (n := sub) h).emitQuest greedy).call
  | .repeat_ sub min max greedy, h =>
    ((emit_addsCode (n := sub) h).emitRepeat (nullable sub) min max greedy).call
  | .group sub none, h => (emit_addsCode (n := sub) h).call
  | .group _ (some _), h => ((emit_addsCode h.2.2).emitGroup h.1 h.2.1).call
theorem emitAll_addsCode {g : ℕ} : ∀ {ns : List Node}, AllGroupsWithin g ns →
    AddsCode g (emitAll ns)
  | [], _ => AddsCode.pure
  | _ :: _, h => (emit_addsCode h.1).then_ (emitAll_addsCode h.2)
end

/-- A program in its wrapper: `head` in front of the save of slot 0, then code inside itself, then the
    save of slot 1 and the match. -/
def Program.WellFormed (prog : Program) (head body : List Inst) : Prop :=
  prog.insts = head ++ .save 0 :: (body ++ [.save 1, .match_]) ∧
    (∀ i ∈ head, i.Inside 0 head.length prog.classes.length prog.ngroups) ∧
      ∀ i ∈ body, i.Inside (head.length + 1) (head.length + 1 + body.length) prog.classes.length
        prog.ngroups

/-- The head of the wrapper before its save. -/
def Wrapper.lead (w : Wrapper) : List Inst :=
  [if w = .gatedRightmost then .split 1 3 else .split 3 1, .anyChar, .jmp 0] ++
    (if w = .search then [] else [.gate])

theorem Wrapper.head_eq (w : Wrapper) : w.head = w.lead ++ [.save 0] := rfl

theorem Wrapper.lead_inside (w : Wrapper) (k g : ℕ) :
    ∀ i ∈ w.lead, i.Inside 0 w.lead.length k g := by
  cases w <;> simp [Wrapper.lead, Inst.Inside]

theorem emitInsts_eq_ok {is : List Inst} {c c' : Compiler} (h : emitInsts is c = (.ok (), c')) :
    c' = { c with insts := c.insts ++ is } := by
  induction is generalizing c with
  | nil =>
    cases h
    rw [List.append_nil]
  | cons i is ih =>
    obtain ⟨_, c₁, hinst, hrest⟩ := bind_eq_ok h
    rw [emitInst_eq_ok hinst] at hrest
    rw [ih hrest, List.append_assoc]
    rfl

theorem compileRoot_wellFormed {w : Wrapper} {root : Node} {ngroups : ℕ} {prog : Program}
    (hgroups : root.GroupsWithin ngroups) (h : (compileRoot w root ngroups).1 = .ok prog) :
    ∃ body, prog.WellFormed w.lead body := by
  rw [compileRoot] at h
  cases hrun : emitProgram w root ⟨[], [], 0⟩ with
  | mk r c =>
    rw [hrun] at h
    cases r with
    | error e => cases h
    | ok _ =>
      cases h
      obtain ⟨_, c₁, hhead, hrun⟩ := bind_eq_ok hrun
      rw [emitInsts_eq_ok hhead] at hrun
      obtain ⟨_, c₂, hbody, hrun⟩ := bind_eq_ok hrun
      rw [emitInsts_eq_ok hrun]
      obtain ⟨-, body, hcode, hin⟩ := emit_addsCode hgroups _ _ hbody
      refine ⟨body, ?_, w.lead_inside _ _, fun i hi => ?_⟩
      · change c₂.insts ++ _ = _
        rw [hcode, w.head_eq]
        simp
      · refine (hin i hi).mono ?_ ?_ (Nat.le_refl _)
        · simp [w.head_eq]
        · rw [hcode, w.head_eq]
          simp only [List.nil_append, List.length_append, List.length_cons, List.length_nil]
          omega

/-- A compiled program is its pattern's code in the wrapper. -/
theorem compileWrapped_wellFormed {pattern : List Char} {mode : Mode} {w : Wrapper} {prog : Program}
    (h : (compileWrapped pattern mode w).1 = .ok prog) : ∃ body, prog.WellFormed w.lead body := by
  rw [compileWrapped] at h
  cases hp : parse mode pattern with
  | error e =>
    rw [hp] at h
    cases h
  | ok v =>
    rw [hp] at h
    exact compileRoot_wellFormed (parse_groups hp) h

end Jed.Regex
