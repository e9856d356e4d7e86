import Jed.Regex.Emitted
import Jed.Regex.Program
import Mathlib.Data.Finset.Card
import Mathlib.Data.Finset.Range

/-!
# The span of a match

A search of a compiled program gives an answer, and the slots of a match are its span: the thread that
matches went through the save of slot 0 and then through that of slot 1, with code between them that
touches neither.
-/

namespace Jed.Regex

section WellFormed

variable {prog : Program} {head body : List Inst} {pc : ℕ} {inst : Inst}

/-- How far a thread at `pc` is: before the save of slot 0, after it, or at the match. -/
def stage (head body : List Inst) (pc : ℕ) : ℕ :=
  if pc ≤ head.length then 0 else if pc ≤ head.length + 1 + body.length then 1 else 2

theorem Program.WellFormed.length (hwf : prog.WellFormed head body) :
    prog.insts.length = head.length + 1 + body.length + 2 := by
  rw [hwf.1]
  simp only [List.length_append, List.length_cons, List.length_nil]
  omega

/-- The instruction is one of the wrapper's, or jumps within its own stage. -/
theorem Program.WellFormed.inst_cases (hwf : prog.WellFormed head body)
    (h : prog.insts[pc]? = some inst) :
    (pc = head.length ∧ inst = .save 0) ∨
      (pc = head.length + 1 + body.length ∧ inst = .save 1) ∨
      (pc = head.length + 1 + body.length + 1 ∧ inst = .match_) ∨
      ∃ lo hi, lo ≤ pc ∧ pc < hi ∧ hi < prog.insts.length ∧
        inst.Inside lo hi prog.classes.length prog.ngroups ∧
          ∀ q, lo ≤ q → q ≤ hi → stage head body q = stage head body pc := by
  have hlen := hwf.length
  obtain ⟨hinsts, hhead, hbody⟩ := hwf
  rw [hinsts] at h
  rcases Nat.lt_trichotomy pc head.length with hpc | hpc | hpc
  · rw [List.getElem?_append_left hpc] at h
    refine .inr (.inr (.inr ⟨0, head.length, Nat.zero_le _, hpc, by omega,
      hhead inst (List.mem_of_getElem? h), fun q _ hq => ?_⟩))
    rw [stage, stage, if_pos hq, if_pos (Nat.le_of_lt hpc)]
  · rw [hpc, List.getElem?_append_right (Nat.le_refl _), Nat.sub_self] at h
    cases h
    exact .inl ⟨hpc, rfl⟩
  · rw [List.getElem?_append_right (Nat.le_of_lt hpc)] at h
    obtain ⟨j, hj⟩ : ∃ j, pc - head.length = j + 1 := ⟨pc - head.length - 1, by omega⟩
    rw [hj, List.getElem?_cons_succ] at h
    rcases Nat.lt_or_ge j body.length with hjb | hjb
    · rw [List.getElem?_append_left hjb] at h
      refine .inr (.inr (.inr ⟨head.length + 1, head.length + 1 + body.length, by omega, by omega,
        by omega, hbody inst (List.mem_of_getElem? h), fun q hq hq' => ?_⟩))
      have hq₁ : stage head body q = 1 := by rw [stage, if_neg (by omega), if_pos (by omega)]
      rw [hq₁, stage, if_neg (by omega), if_pos (by omega)]
    · rw [List.getElem?_append_right hjb] at h
      obtain ⟨k, hk⟩ : ∃ k, j - body.length = k := ⟨_, rfl⟩
      rw [hk] at h
      match k, hk, h with
      | 0, hk, h =>
        cases h
        exact .inr (.inl ⟨by omega, rfl⟩)
      | 1, hk, h =>
        cases h
        exact .inr (.inr (.inl ⟨by omega, rfl⟩))
      | k + 2, _, h => cases h

end WellFormed

section Search

variable (prog : Program) (head body : List Inst) (start : ℕ)

/-- What the slots of a thread hold at `sp` by its stage. -/
structure CapsAt (sp k : ℕ) (caps : Option Slots) : Prop where
  length : ∀ l, caps = some l → l.length = 2 * (prog.ngroups + 1)
  opened : 1 ≤ k → ∃ l : Slots, ∃ s : ℕ, caps = some l ∧ l[0]? = some (s : ℤ) ∧ start ≤ s ∧ s ≤ sp
  closed : 2 ≤ k → ∃ l : Slots, ∃ s e : ℕ, caps = some l ∧ l[0]? = some (s : ℤ) ∧
    l[1]? = some (e : ℤ) ∧ start ≤ s ∧ s ≤ e ∧ e ≤ sp

/-- A thread of the search at `sp`. -/
def Good (sp : ℕ) (t : Thread) : Prop :=
  t.pc < prog.insts.length ∧ CapsAt prog start sp (stage head body t.pc) t.caps

/-- A thread parked for `sp`. -/
def Parked (sp : ℕ) (t : Thread) : Prop :=
  Good prog head body start sp t ∧ ∃ inst, prog.insts[t.pc]? = some inst ∧ inst.parks = true

variable {prog head body start} {sp k : ℕ} {caps : Option Slots} {input : List Char}
variable {gate : Option (List Bool)}

theorem CapsAt.mono {sp' : ℕ} (h : CapsAt prog start sp k caps) (hsp : sp ≤ sp') :
    CapsAt prog start sp' k caps where
  length := h.length
  opened hk := by
    obtain ⟨l, s, hl, hs, hstart, hle⟩ := h.opened hk
    exact ⟨l, s, hl, hs, hstart, Nat.le_trans hle hsp⟩
  closed hk := by
    obtain ⟨l, s, e, hl, hs, he, hstart, hse, hle⟩ := h.closed hk
    exact ⟨l, s, e, hl, hs, he, hstart, hse, Nat.le_trans hle hsp⟩

/-- A slot of the program is set. -/
theorem withSlot_ok (h : CapsAt prog start sp k caps) {n : ℕ} (hn : n < 2 * (prog.ngroups + 1))
    (v : ℤ) : ∃ l : Slots, l.length = 2 * (prog.ngroups + 1) ∧
      prog.withSlot caps n v = some (l.set n v) ∧ ∀ l', caps = some l' → l = l' := by
  cases caps with
  | none =>
    refine ⟨List.replicate (2 * (prog.ngroups + 1)) (-1), List.length_replicate, ?_, nofun⟩
    rw [Program.withSlot]
    simp [hn]
  | some l =>
    have hlen := h.length l rfl
    refine ⟨l, hlen, ?_, fun l' hl' => Option.some.inj hl'⟩
    rw [Program.withSlot]
    simp [hlen, hn]

/-- A save of another group's slot keeps what the stage says. -/
theorem CapsAt.set_other {l : Slots} {n : ℕ} (h : CapsAt prog start sp k caps) (hn : 2 ≤ n)
    (hlen : l.length = 2 * (prog.ngroups + 1)) (hl : ∀ l', caps = some l' → l = l') (v : ℤ) :
    CapsAt prog start sp k (some (l.set n v)) where
  length l' hl' := by
    cases hl'
    rw [List.length_set, hlen]
  opened hk := by
    obtain ⟨l', s, hcaps, hs, hrest⟩ := h.opened hk
    refine ⟨l.set n v, s, rfl, ?_, hrest⟩
    rw [hl l' hcaps, List.getElem?_set_ne (by omega)]
    exact hs
  closed hk := by
    obtain ⟨l', s, e, hcaps, hs, he, hrest⟩ := h.closed hk
    refine ⟨l.set n v, s, e, rfl, ?_, ?_, hrest⟩
    · rw [hl l' hcaps, List.getElem?_set_ne (by omega)]
      exact hs
    · rw [hl l' hcaps, List.getElem?_set_ne (by omega)]
      exact he

theorem Good.next {t : Thread} {q : ℕ} (h : Good prog head body start sp t)
    (hq : q < prog.insts.length) (hstage : stage head body q = stage head body t.pc) :
    Good prog head body start sp ⟨q, t.caps⟩ := ⟨hq, by
  change CapsAt prog start sp (stage head body q) t.caps
  rw [hstage]
  exact h.2⟩

/-- What `add_thread` pushes: two threads of the search at most. -/
def Pushes (prog : Program) (head body : List Inst) (start sp : ℕ) (r : Option (List Thread)) :
    Prop :=
  ∃ next, r = some next ∧ next.length ≤ 2 ∧ ∀ t ∈ next, Good prog head body start sp t

namespace Pushes

variable {t u : Thread}

theorem none : Pushes prog head body start sp (some []) := ⟨[], rfl, Nat.zero_le _, nofun⟩

theorem one (h : Good prog head body start sp t) : Pushes prog head body start sp (some [t]) :=
  ⟨[t], rfl, by simp, fun _ ht' => List.mem_singleton.1 ht' ▸ h⟩

theorem two (h : Good prog head body start sp t) (h' : Good prog head body start sp u) :
    Pushes prog head body start sp (some [t, u]) := by
  refine ⟨[t, u], rfl, by simp, fun t' ht' => ?_⟩
  rcases List.mem_cons.1 ht' with rfl | ht'
  · exact h
  · exact List.mem_singleton.1 ht' ▸ h'

theorem guarded {c : Prop} [Decidable c] (h : Good prog head body start sp t) :
    Pushes prog head body start sp (some (if c then [t] else [])) := by
  split
  · exact one h
  · exact none

end Pushes

theorem follow_good (hwf : prog.WellFormed head body) (hstart : start ≤ sp)
    (hsp : sp ≤ input.length) (hgate : ∀ g, gate = some g → sp < g.length) {t : Thread}
    {inst : Inst} (h : Good prog head body start sp t) (hinst : prog.insts[t.pc]? = some inst)
    (hparks : inst.parks = false) :
    Pushes prog head body start sp (prog.follow input gate sp t inst) := by
  have hlen := hwf.length
  rcases hwf.inst_cases hinst with
    ⟨hpc, rfl⟩ | ⟨hpc, rfl⟩ | ⟨hpc, rfl⟩ | ⟨lo, hi, hlo, hhi, hlast, hin, hstage⟩
  · -- the save of slot 0 opens the span
    obtain ⟨l, hl, hset, -⟩ := withSlot_ok h.2 (n := 0) (by omega) (sp : ℤ)
    rw [Program.follow, hset]
    refine Pushes.one ⟨by change t.pc + 1 < _; omega, ?_⟩
    have hs : stage head body (t.pc + 1) = 1 := by
      rw [stage, if_neg (by omega), if_pos (by omega)]
    change CapsAt prog start sp (stage head body (t.pc + 1)) _
    rw [hs]
    refine ⟨?_, fun _ => ⟨l.set 0 sp, sp, rfl, ?_, hstart, Nat.le_refl _⟩, fun hk => by omega⟩
    · rintro l' ⟨⟩
      rw [List.length_set, hl]
    · rw [List.getElem?_set_self (by omega)]
  · -- the save of slot 1 closes it
    have hs : stage head body t.pc = 1 := by
      rw [stage, if_neg (by omega), if_pos (by omega)]
    obtain ⟨l₀, s, hcaps, hs₀, hs₁, hs₂⟩ := h.2.opened (by omega)
    obtain ⟨l, hl, hset, hsame⟩ := withSlot_ok h.2 (n := 1) (by omega) (sp : ℤ)
    rw [← hsame l₀ hcaps] at hs₀
    have hopen : (l.set 1 (sp : ℤ))[0]? = some (s : ℤ) := by
      rw [List.getElem?_set_ne (by omega)]
      exact hs₀
    rw [Program.follow, hset]
    refine Pushes.one ⟨by change t.pc + 1 < _; omega, ?_, fun _ => ⟨l.set 1 sp, s, rfl, hopen, hs₁, hs₂⟩,
      fun _ => ⟨l.set 1 sp, s, sp, rfl, hopen, ?_, hs₁, hs₂, Nat.le_refl _⟩⟩
    · rintro l' ⟨⟩
      rw [List.length_set, hl]
    · rw [List.getElem?_set_self (by omega)]
  · cases hparks
  · have hnext : Good prog head body start sp ⟨t.pc + 1, t.caps⟩ :=
      h.next (by omega) (hstage _ (by omega) (by omega))
    have hgo : ∀ x, lo ≤ x ∧ x ≤ hi → Good prog head body start sp ⟨x, t.caps⟩ := fun x hx =>
      h.next (by omega) (hstage x hx.1 hx.2)
    cases inst with
    | char _ | any | anyChar | class_ _ | match_ => cases hparks
    | split x y => exact Pushes.two (hgo x hin.1) (hgo y hin.2)
    | jmp x => exact Pushes.one (hgo x hin)
    | save n =>
      obtain ⟨l, hl, hset, hsame⟩ := withSlot_ok h.2 hin.2 (sp : ℤ)
      rw [Program.follow, hset]
      exact Pushes.one ⟨hnext.1, hnext.2.set_other hin.1 hl hsame _⟩
    | assertStart | assertEnd => exact Pushes.guarded hnext
    | assertLineStart =>
      rw [Program.follow]
      split
      · exact Pushes.one hnext
      · rw [List.getElem?_eq_getElem (by omega)]
        exact Pushes.guarded hnext
    | assertLineEnd =>
      rw [Program.follow]
      split
      · exact Pushes.one hnext
      · rw [List.getElem?_eq_getElem (by omega)]
        exact Pushes.guarded hnext
    | gate =>
      cases gate with
      | none => exact Pushes.none
      | some g =>
        rw [Program.follow, List.getElem?_eq_getElem (hgate g rfl)]
        exact Pushes.guarded hnext

/-- The instructions that are not visited yet. -/
def unseen (prog : Program) (seen : List ℕ) : ℕ :=
  ((Finset.range prog.insts.length).filter (· ∉ seen)).card

theorem unseen_cons {seen : List ℕ} {pc : ℕ} (hpc : pc < prog.insts.length) (hnew : pc ∉ seen) :
    unseen prog (pc :: seen) < unseen prog seen := by
  refine Finset.card_lt_card ⟨fun q hq => ?_, fun hsub => ?_⟩
  · rw [Finset.mem_filter] at hq ⊢
    exact ⟨hq.1, fun h => hq.2 (List.mem_cons_of_mem _ h)⟩
  · have hmem := hsub (Finset.mem_filter.2 ⟨Finset.mem_range.2 hpc, hnew⟩)
    exact (Finset.mem_filter.1 hmem).2 List.mem_cons_self

theorem unseen_le (seen : List ℕ) : unseen prog seen ≤ prog.insts.length := by
  refine Nat.le_trans (Finset.card_filter_le _ _) ?_
  rw [Finset.card_range]

/-- Each visited instruction pushes two threads at most, so the fuel lasts; what is parked are threads of
    the search. -/
theorem addLoop_good (hwf : prog.WellFormed head body) (hstart : start ≤ sp)
    (hsp : sp ≤ input.length) (hgate : ∀ g, gate = some g → sp < g.length) (fuel : ℕ)
    (stack : List Thread) (seen : List ℕ) (list : List Thread)
    (hfuel : stack.length + 2 * unseen prog seen ≤ fuel)
    (hstack : ∀ t ∈ stack, Good prog head body start sp t)
    (hlist : ∀ t ∈ list, Parked prog head body start sp t) :
    ∃ seen' list', prog.addLoop input gate sp fuel stack seen list = some (seen', list') ∧
      ∀ t ∈ list', Parked prog head body start sp t := by
  induction fuel generalizing stack seen list with
  | zero =>
    cases stack with
    | nil => exact ⟨seen, list, by rw [Program.addLoop], hlist⟩
    | cons t stack =>
      simp only [List.length_cons] at hfuel
      omega
  | succ fuel ih =>
    cases stack with
    | nil => exact ⟨seen, list, by rw [Program.addLoop], hlist⟩
    | cons t stack =>
      simp only [List.length_cons] at hfuel
      have ht := hstack t List.mem_cons_self
      have hrest : ∀ t ∈ stack, Good prog head body start sp t := fun t' ht' =>
        hstack t' (List.mem_cons_of_mem _ ht')
      rw [Program.addLoop]
      by_cases hseen : t.pc ∈ seen
      · rw [if_pos hseen]
        exact ih stack seen list (by omega) hrest hlist
      · have hdrop := unseen_cons ht.1 hseen
        obtain ⟨inst, hinst⟩ : ∃ inst, prog.insts[t.pc]? = some inst :=
          ⟨_, List.getElem?_eq_getElem ht.1⟩
        rw [if_neg hseen, hinst]
        dsimp only
        cases hparks : inst.parks with
        | true =>
          rw [if_pos rfl]
          refine ih stack _ _ (by omega) hrest fun t' ht' => ?_
          rcases List.mem_append.1 ht' with ht' | ht'
          · exact hlist t' ht'
          · rw [List.mem_singleton.1 ht']
            exact ⟨ht, inst, hinst, hparks⟩
        | false =>
          rw [if_neg Bool.false_ne_true]
          obtain ⟨next, hnext, htwo, hgood⟩ := follow_good hwf hstart hsp hgate ht hinst hparks
          rw [hnext]
          refine ih (next ++ stack) _ list ?_ (fun t' ht' => ?_) hlist
          · rw [List.length_append]
            omega
          · exact (List.mem_append.1 ht').elim (hgood t') (hrest t')

theorem addThread_good (input : List Char) (gate : Option (List Bool))
    (hwf : prog.WellFormed head body) (hstart : start ≤ sp) (hsp : sp ≤ input.length)
    (hgate : ∀ g, gate = some g → sp < g.length) {t : Thread}
    (h : Good prog head body start sp t) (seen : List ℕ) (list : List Thread)
    (hlist : ∀ t ∈ list, Parked prog head body start sp t) :
    ∃ seen' list', prog.addThread input gate sp t seen list = some (seen', list') ∧
      ∀ t ∈ list', Parked prog head body start sp t := by
  refine addLoop_good hwf hstart hsp hgate _ [t] seen list ?_ (fun t' ht' => ?_) hlist
  · have hle : unseen prog seen ≤ prog.insts.length := unseen_le seen
    simp only [List.length_cons, List.length_nil]
    omega
  · rw [List.mem_singleton.1 ht']
    exact h

/-- The slots of a match: its span lies between `start` and `len`. -/
def SpanOk (prog : Program) (start len : ℕ) (l : Slots) : Prop :=
  l.length = 2 * (prog.ngroups + 1) ∧ ∃ s e : ℕ, l[0]? = some (s : ℤ) ∧ l[1]? = some (e : ℤ) ∧
    start ≤ s ∧ s ≤ e ∧ e ≤ len

/-- The slots that a search has found so far. -/
def MatchedOk (prog : Program) (start len : ℕ) (matched : Option Slots) : Prop :=
  ∀ l, matched = some l → SpanOk prog start len l

theorem Parked.advances (input : List Char) (hwf : prog.WellFormed head body) {t : Thread} {inst : Inst}
    (h : Parked prog head body start sp t) (hinst : prog.insts[t.pc]? = some inst)
    (hmatch : inst ≠ .match_) :
    ∃ b, prog.advances input sp inst = some b ∧
      (b = true → sp < input.length ∧ Good prog head body start (sp + 1) ⟨t.pc + 1, t.caps⟩) := by
  obtain ⟨hgood, inst', hinst', hparks⟩ := h
  rw [hinst] at hinst'
  cases hinst'
  have hlt : ∀ c, input[sp]? = some c → sp < input.length := fun c hc =>
    (List.getElem?_eq_some_iff.1 hc).1
  rcases hwf.inst_cases hinst with
    ⟨-, rfl⟩ | ⟨-, rfl⟩ | ⟨-, rfl⟩ | ⟨lo, hi, hlo, hhi, hlast, hin, hstage⟩
  · cases hparks
  · cases hparks
  · exact absurd rfl hmatch
  · have hnext : Good prog head body start (sp + 1) ⟨t.pc + 1, t.caps⟩ := by
      have := hgood.next (q := t.pc + 1) (by omega) (hstage _ (by omega) (by omega))
      exact ⟨this.1, this.2.mono (Nat.le_succ sp)⟩
    cases inst with
    | split _ _ | jmp _ | save _ | assertStart | assertEnd | assertLineStart | assertLineEnd | gate =>
      cases hparks
    | match_ => exact absurd rfl hmatch
    | char c =>
      exact ⟨_, rfl, fun hb => ⟨hlt c (of_decide_eq_true hb), hnext⟩⟩
    | any =>
      refine ⟨_, rfl, fun hb => ⟨?_, hnext⟩⟩
      cases hc : input[sp]? with
      | none =>
        rw [hc] at hb
        cases hb
      | some c => exact hlt c hc
    | anyChar => exact ⟨_, rfl, fun hb => ⟨of_decide_eq_true hb, hnext⟩⟩
    | class_ k =>
      rw [Program.advances]
      cases hc : input[sp]? with
      | none => exact ⟨false, rfl, fun hb => absurd hb Bool.false_ne_true⟩
      | some c =>
        dsimp only
        rw [List.getElem?_eq_getElem hin]
        exact ⟨_, rfl, fun _ => ⟨hlt c hc, hnext⟩⟩

theorem consume_match {t : Thread} (ts : List Thread) (seen : List ℕ) (nlist : List Thread)
    (h : prog.insts[t.pc]? = some .match_) :
    prog.consume input gate sp (t :: ts) seen nlist = some (nlist, some t.caps) := by
  rw [Program.consume, h]

theorem consume_other {t : Thread} {inst : Inst} (ts : List Thread) (seen : List ℕ)
    (nlist : List Thread) (h : prog.insts[t.pc]? = some inst) (hmatch : inst ≠ .match_) :
    prog.consume input gate sp (t :: ts) seen nlist =
      match prog.advances input sp inst with
      | none => none
      | some false => prog.consume input gate sp ts seen nlist
      | some true =>
        match prog.addThread input gate (sp + 1) ⟨t.pc + 1, t.caps⟩ seen nlist with
        | none => none
        | some (seen, nlist) => prog.consume input gate sp ts seen nlist := by
  rw [Program.consume, h]
  cases inst <;> first | rfl | exact absurd rfl hmatch

/-- The threads of a position give the threads of the next one, and a match its span. -/
theorem consume_good (hwf : prog.WellFormed head body) (hstart : start ≤ sp)
    (hsp : sp ≤ input.length) (ts : List Thread) (seen : List ℕ) (nlist : List Thread)
    (hts : ∀ t ∈ ts, Parked prog head body start sp t)
    (hnlist : ∀ t ∈ nlist, Parked prog head body start (sp + 1) t) :
    ∃ nlist' hit, prog.consume input none sp ts seen nlist = some (nlist', hit) ∧
      (∀ t ∈ nlist', Parked prog head body start (sp + 1) t) ∧
      ∀ matched, hit = some matched → MatchedOk prog start input.length matched := by
  induction ts generalizing seen nlist with
  | nil => exact ⟨nlist, none, by rw [Program.consume], hnlist, nofun⟩
  | cons t ts ih =>
    have ht := hts t List.mem_cons_self
    have hrest : ∀ t ∈ ts, Parked prog head body start sp t := fun t' ht' =>
      hts t' (List.mem_cons_of_mem _ ht')
    obtain ⟨inst, hinst, hparks⟩ := ht.2
    by_cases hmatch : inst = .match_
    · subst hmatch
      refine ⟨nlist, some t.caps, consume_match ts seen nlist hinst, hnlist, ?_⟩
      rintro _ ⟨⟩ l hl
      have hstage : stage head body t.pc = 2 := by
        rcases hwf.inst_cases hinst with ⟨-, h⟩ | ⟨-, h⟩ | ⟨hpc, -⟩ | ⟨_, _, -, -, -, hin, -⟩
        · cases h
        · cases h
        · rw [stage, if_neg (by omega), if_neg (by omega)]
        · exact hin.elim
      obtain ⟨l', s, e, hcaps, hs, he, hle, hse, hlast⟩ := ht.1.2.closed (by omega)
      rw [hl] at hcaps
      cases hcaps
      exact ⟨ht.1.2.length l hl, s, e, hs, he, hle, hse, Nat.le_trans hlast hsp⟩
    · obtain ⟨b, hb, hgo⟩ := ht.advances input hwf hinst hmatch
      rw [consume_other ts seen nlist hinst hmatch, hb]
      cases b with
      | false => exact ih seen nlist hrest hnlist
      | true =>
        obtain ⟨hlt, hgood⟩ := hgo rfl
        obtain ⟨seen', nlist', hadd, hparked⟩ := addThread_good input none hwf
          (Nat.le_succ_of_le hstart) hlt nofun hgood seen nlist hnlist
        dsimp only
        rw [hadd]
        exact ih seen' nlist' hrest hparked

/-- The positions that are left give an answer, with the span of whichever match was the last. -/
theorem steps_good (hwf : prog.WellFormed head body) (n : ℕ) (hstart : start ≤ sp)
    (hn : sp + n = input.length + 1) (clist : List Thread) (matched : Option Slots)
    (hclist : ∀ t ∈ clist, Parked prog head body start sp t)
    (hmatched : MatchedOk prog start input.length matched) :
    ∃ r, prog.steps input none n sp clist matched = some r ∧
      MatchedOk prog start input.length r := by
  induction n generalizing sp clist matched with
  | zero => exact ⟨matched, rfl, hmatched⟩
  | succ n ih =>
    have hsp : sp ≤ input.length := by omega
    obtain ⟨nlist, hit, hconsume, hnlist, hhit⟩ :=
      consume_good hwf hstart hsp clist [] [] hclist nofun
    have hnext : MatchedOk prog start input.length (hit.getD matched) := by
      cases hit with
      | none => exact hmatched
      | some m => exact hhit m rfl
    rw [Program.steps, hconsume]
    dsimp only
    split
    · exact ⟨_, rfl, hnext⟩
    · exact ih (Nat.le_succ_of_le hstart) (by omega) nlist _ hnlist hnext

/-- A search of a compiled program from a position of the input gives an answer, and a match its span. -/
theorem search_good (hwf : prog.WellFormed head body) (hstart : start ≤ input.length) :
    ∃ r, prog.search input start = some r ∧ MatchedOk prog start input.length r := by
  have hlen := hwf.length
  have hgood : Good prog head body start start ⟨0, none⟩ := by
    refine ⟨by change 0 < _; omega, nofun, fun hk => ?_, fun hk => ?_⟩
    all_goals
      rw [show stage head body 0 = 0 from if_pos (Nat.zero_le _)] at hk
      omega
  obtain ⟨seen, clist, hadd, hclist⟩ := addThread_good input none hwf (Nat.le_refl start)
    hstart nofun hgood [] [] nofun
  rw [Program.search, Program.gatedSearch, hadd]
  exact steps_good hwf _ (Nat.le_refl start) (by omega) clist none hclist nofun

end Search

end Jed.Regex
