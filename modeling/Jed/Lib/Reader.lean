import Mathlib.Data.List.Basic
import Mathlib.Tactic.Common

/-!
# Readers

A reader takes what it reads off the front of its input. Three facts about readers are kept by
composition: that one reads a value off given bytes whatever follows, that one does well on every
input, and that one takes what another takes.
-/

namespace Readers

/-- A reader of `α` from a list of `β`, failing with `ε`. -/
abbrev Reader (ε β α : Type) := StateT (List β) (Except ε) α

variable {ε β α γ δ κ : Type}

/-- The reader takes `b` off the front of any input and returns `v`. -/
def Reads (r : Reader ε β α) (b : List β) (v : α) : Prop := ∀ rest, r (b ++ rest) = .ok (v, rest)

theorem Reads.pure (v : α) : Reads (pure v : Reader ε β α) [] v := fun _ => rfl

variable {r : Reader ε β α} {f : α → Reader ε β γ} {b c : List β} {v : α} {w : γ}

theorem Reads.bind (h : Reads r b v) (h' : Reads (f v) c w) : Reads (r >>= f) (b ++ c) w := by
  intro rest
  show (r (b ++ c ++ rest) >>= fun p => f p.1 p.2) = _
  rw [List.append_assoc, h]
  exact h' rest

theorem Reads.bind_nil (h : Reads r [] v) (h' : Reads (f v) c w) : Reads (r >>= f) c w := h.bind h'

theorem Reads.map {f : α → γ} (h : Reads r b v) :
    Reads (r >>= fun a => Pure.pure (f a)) b (f v) := by
  have := Reads.bind (f := fun a => Pure.pure (f a)) h (Reads.pure (f v))
  rwa [List.append_nil] at this

theorem Reads.check (h : Reads r b v) (h' : Reads (f v) [] w) : Reads (r >>= f) b w := by
  have := h.bind h'
  rwa [List.append_nil] at this

theorem Reads.run (h : Reads r b v) : r b = .ok (v, []) := by
  have := h []
  rwa [List.append_nil] at this

theorem Reads.unique {w : α} (h : Reads r b v) (h' : Reads r b w) :
    v = w := by
  have := h.run.symm.trans h'.run
  cases this
  rfl

/-- On every input the reader either takes a front off it and returns a value of `P`, as it does
    whatever follows, or fails in a way that is `good`. -/
def Sound (good : ε → Prop) (r : Reader ε β α) (P : α → Prop) : Prop :=
  ∀ buf, match r buf with
    | .ok (v, rest) => rest <:+ buf ∧ P v ∧ ∀ more, r (buf ++ more) = .ok (v, rest ++ more)
    | .error e => good e

variable {good : ε → Prop}

variable {P : α → Prop}

theorem Sound.pure (h : P v) : Sound good (pure v : Reader ε β α) P :=
  fun buf => ⟨List.suffix_refl buf, h, fun _ => rfl⟩

variable {e : ε}

theorem Sound.throw (h : good e) :
    Sound good (throw e : Reader ε β α) P := fun _ => h

variable {buf rest : List β}

theorem Sound.ok (h : Sound good r P) (hr : r buf = .ok (v, rest)) :
    rest <:+ buf ∧ P v ∧ ∀ more, r (buf ++ more) = .ok (v, rest ++ more) := by
  have := h buf
  rw [hr] at this
  exact this

theorem Sound.error (h : Sound good r P) (hr : r buf = .error e) : good e := by
  have := h buf
  rw [hr] at this
  exact this

theorem Sound.of (hok : ∀ buf v rest, r buf = .ok (v, rest) →
      rest <:+ buf ∧ P v ∧ ∀ more, r (buf ++ more) = .ok (v, rest ++ more))
    (herr : ∀ buf e, r buf = .error e → good e) : Sound good r P := by
  intro buf
  cases hr : r buf with
  | error e => exact herr buf e hr
  | ok p => exact hok buf p.1 p.2 hr

theorem bind_ok (h : r buf = .ok (v, rest)) : (r >>= f) buf = f v rest := by
  show (r buf >>= fun p => f p.1 p.2) = _
  rw [h]
  rfl

theorem bind_error (h : r buf = .error e) : (r >>= f) buf = .error e := by
  show (r buf >>= fun p => f p.1 p.2) = _
  rw [h]
  rfl

theorem Sound.bind {Q : γ → Prop}
    (h : Sound good r P) (h' : ∀ v, P v → Sound good (f v) Q) : Sound good (r >>= f) Q := by
  apply Sound.of
  · intro buf w rest hw
    cases hr : r buf with
    | error e =>
      rw [bind_error hr] at hw
      cases hw
    | ok p =>
      obtain ⟨hsuffix, hp, hmore⟩ := h.ok hr
      rw [bind_ok hr] at hw
      obtain ⟨hsuffix', hq, hmore'⟩ := (h' p.1 hp).ok hw
      refine ⟨hsuffix'.trans hsuffix, hq, fun more => ?_⟩
      rw [bind_ok (hmore more)]
      exact hmore' more
  · intro buf e he
    cases hr : r buf with
    | error e' =>
      rw [bind_error hr] at he
      cases he
      exact h.error hr
    | ok p =>
      rw [bind_ok hr] at he
      exact (h' p.1 (h.ok hr).2.1).error he

theorem Sound.mono {Q : α → Prop} (h : Sound good r P) (hPQ : ∀ v, P v → Q v) : Sound good r Q := by
  apply Sound.of
  · intro buf v rest hr
    obtain ⟨hsuffix, hp, hmore⟩ := h.ok hr
    exact ⟨hsuffix, hPQ v hp, hmore⟩
  · intro buf e hr
    exact h.error hr

theorem Sound.value (h : Sound good r P)
    (hr : r buf = .ok (v, rest)) : P v := (h.ok hr).2.1

/-- What reads a value off its bytes does not read it off a proper front of them. -/
theorem Sound.whole (h : Sound good r P) {front more : List β}
    {w : α} (hr : r (front ++ more) = .ok (v, [])) (hmore : more ≠ []) :
    r front ≠ .ok (w, rest) := by
  intro hfront
  rw [(h.ok hfront).2.2 more] at hr
  cases hr' : rest ++ more with
  | nil => exact hmore (List.append_eq_nil_iff.mp hr').2
  | cons b bs =>
    rw [hr'] at hr
    cases hr

/-- What the reader takes off the front of any input and what it returns are in `T`. -/
def Takes (r : Reader ε β α) (T : List β → α → Prop) : Prop :=
  ∀ buf v rest, r buf = .ok (v, rest) → ∃ front, buf = front ++ rest ∧ T front v

variable {T : List β → α → Prop}

theorem Takes.pure (h : T [] v) :
    Takes (pure v : Reader ε β α) T := by
  intro buf _ _ hv
  cases hv
  exact ⟨[], rfl, h⟩

theorem Takes.throw : Takes (throw e : Reader ε β α) T :=
  fun _ _ _ h => (nomatch h)

theorem Takes.bind {U : List β → γ → Prop} (h : Takes r T)
    (h' : ∀ v b, T b v → Takes (f v) fun c w => U (b ++ c) w) : Takes (r >>= f) U := by
  intro buf w rest hw
  cases hr : r buf with
  | error e =>
    rw [bind_error hr] at hw
    cases hw
  | ok p =>
    rw [bind_ok hr] at hw
    obtain ⟨front, hfront, hT⟩ := h buf _ _ hr
    obtain ⟨front', hfront', hU⟩ := h' p.1 front hT _ _ _ hw
    refine ⟨front ++ front', ?_, hU⟩
    rw [hfront, hfront', List.append_assoc]

theorem Takes.mono {U : List β → α → Prop} (h : Takes r T) (hTU : ∀ b v, T b v → U b v) : Takes r U := by
  intro buf v rest hv
  obtain ⟨front, hfront, hT⟩ := h buf v rest hv
  exact ⟨front, hfront, hTU front v hT⟩

/-- Where the first reader succeeds so does the second, having taken the same, and what they return
    is in `R`. -/
def Lockstep (R : α → γ → Prop) (r : Reader ε β α) (s : Reader ε β γ) : Prop :=
  ∀ buf v rest, r buf = .ok (v, rest) → ∃ w, s buf = .ok (w, rest) ∧ R v w

theorem Lockstep.refl (r : Reader ε β α) : Lockstep Eq r r := fun _ v _ h => ⟨v, h, rfl⟩

variable {R : α → γ → Prop}

theorem Lockstep.pure (h : R v w) :
    Lockstep R (pure v : Reader ε β α) (pure w) := by
  intro buf _ _ hv
  cases hv
  exact ⟨w, rfl, h⟩

variable {s : Reader ε β γ}

theorem Lockstep.throw_left :
    Lockstep R (throw e) s := fun _ _ _ h => (nomatch h)

theorem Lockstep.bind {Q : δ → κ → Prop} {f : α → Reader ε β δ} {g : γ → Reader ε β κ} (h : Lockstep R r s)
    (h' : ∀ v w, R v w → Lockstep Q (f v) (g w)) : Lockstep Q (r >>= f) (s >>= g) := by
  intro buf v rest hf
  cases hr : r buf with
  | error e =>
    rw [bind_error hr] at hf
    cases hf
  | ok p =>
    rw [bind_ok hr] at hf
    obtain ⟨w, hs, hR⟩ := h buf _ _ hr
    obtain ⟨w', hg, hQ⟩ := h' p.1 w hR p.2 v rest hf
    refine ⟨w', ?_, hQ⟩
    rw [bind_ok hs]
    exact hg

theorem Lockstep.mono {Q : α → γ → Prop} (h : Lockstep R r s) (hRQ : ∀ v w, R v w → Q v w) : Lockstep Q r s := by
  intro buf v rest hv
  obtain ⟨w, hw, hR⟩ := h buf v rest hv
  exact ⟨w, hw, hRQ v w hR⟩

variable {ι : Type}

/-- One read after the other for each of a list. -/
def readEach (f : ι → Reader ε β α) : List ι → Reader ε β (List α)
  | [] => pure []
  | i :: is => do
    let v ← f i
    let vs ← readEach f is
    pure (v :: vs)

/-- One read repeated, for each of a list. -/
theorem Reads.times {enc : α → List β} {vs : List α} (h : ∀ v ∈ vs, Reads r (enc v) v) :
    Reads (readEach (fun _ => r) (List.range vs.length)) (vs.flatMap enc) vs := by
  have hrange : ∀ (is : List ℕ) (vs : List α), is.length = vs.length →
      (∀ v ∈ vs, Reads r (enc v) v) → Reads (readEach (fun _ => r) is) (vs.flatMap enc) vs := by
    intro is
    induction is with
    | nil =>
      intro vs hlen _
      obtain rfl : vs = [] := List.eq_nil_of_length_eq_zero hlen.symm
      exact Reads.pure []
    | cons i is ih =>
      intro vs hlen hvs
      cases vs with
      | nil => cases hlen
      | cons v vs =>
        refine (hvs v List.mem_cons_self).bind ?_
        exact (ih vs (Nat.succ.inj hlen) fun w hw => hvs w (List.mem_cons_of_mem v hw)).map
  exact hrange _ vs List.length_range h

variable {is : List ι}

theorem Sound.each {f : ι → Reader ε β α} (h : ∀ i ∈ is, Sound good (f i) P) :
    Sound good (readEach f is) fun vs => vs.length = is.length ∧ ∀ v ∈ vs, P v := by
  induction is with
  | nil => exact Sound.pure ⟨rfl, fun _ h => nomatch h⟩
  | cons i is ih =>
    refine (h i List.mem_cons_self).bind fun v hv => ?_
    refine (ih fun j hj => h j (List.mem_cons_of_mem i hj)).bind fun vs hvs => ?_
    exact Sound.pure ⟨congrArg (· + 1) hvs.1, List.forall_mem_cons.mpr ⟨hv, hvs.2⟩⟩

theorem Takes.each {f : ι → Reader ε β α} (h : ∀ i ∈ is, Takes (f i) T) :
    Takes (readEach f is) fun b vs => ∃ bs, b = bs.flatten ∧ List.Forall₂ T bs vs ∧
      vs.length = is.length := by
  induction is with
  | nil => exact Takes.pure ⟨[], rfl, .nil, rfl⟩
  | cons i is ih =>
    refine (h i List.mem_cons_self).bind fun v b hb => ?_
    refine (ih fun j hj => h j (List.mem_cons_of_mem i hj)).bind fun vs c hc => ?_
    obtain ⟨cs, hcs, hall, hlen⟩ := hc
    refine Takes.pure ⟨b :: cs, ?_, .cons hb hall, congrArg (· + 1) hlen⟩
    rw [List.append_nil, hcs]
    rfl

theorem Lockstep.each {f : ι → Reader ε β α} {g : ι → Reader ε β γ}
    (h : ∀ i ∈ is, Lockstep R (f i) (g i)) :
    Lockstep (fun _ _ => True) (readEach f is) (readEach g is) := by
  induction is with
  | nil => exact Lockstep.pure trivial
  | cons i is ih =>
    refine (h i List.mem_cons_self).bind fun v w _ => ?_
    refine (ih fun j hj => h j (List.mem_cons_of_mem i hj)).bind fun vs ws _ => ?_
    exact Lockstep.pure trivial

end Readers
