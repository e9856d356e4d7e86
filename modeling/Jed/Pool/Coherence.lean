import Jed.Pool.System

/-!
# Coherence of the buffer pool

After an invalidation has returned, a call that begins is served from a load that began after it: the
invalidation evicts the page and detaches its flight, and a detached flight is never cached. Together
with the invariant of the table this is the coherence of the pool, for every interleaving.
-/

namespace Jed.Pool

open PoolState

variable {ε τ : Type} {page : PageId} {n k : Nat}

namespace System

/-- Whether the system can take an action: its call stands where the action picks it up. -/
def Enabled (s : System ε τ) : Action ε τ → Prop
  | .load call _ => ∃ page f, s.calls[call]? = some ⟨page, .leading f⟩
  | .publish call => ∃ page f result, s.calls[call]? = some ⟨page, .loaded f result⟩
  | .wake call => ∃ page f result, s.calls[call]? = some ⟨page, .waiting f⟩ ∧
      (s.flights[f]?).bind Flight.result = some result
  | _ => True

variable {s : System ε τ} {a : Action ε τ}

theorem Ok.step_isSome (hs : s.Ok) (ha : s.Enabled a) :
    ∃ s', s.step a = some s' := by
  cases a with
  | enter page =>
    simp only [step, enter]
    split
    · rename_i i hi
      obtain ⟨slot, hslot, -⟩ := hs.indexed.slot hi
      simp only [hslot, Option.bind_eq_bind, Option.bind_some]
      exact ⟨_, rfl⟩
    · split <;> exact ⟨_, rfl⟩
  | load call result =>
    obtain ⟨page, f, hcall⟩ := ha
    simp only [step, load, hcall]
    exact ⟨_, rfl⟩
  | publish call =>
    obtain ⟨page, f, result, hcall⟩ := ha
    obtain ⟨⟨flight, hf, hpage, hnone⟩, -⟩ : Call.Ok s.flights ⟨page, .loaded f result⟩ :=
      hs.calls _ (List.mem_of_getElem? hcall)
    obtain ⟨pool, hpool, -⟩ := cache_spec hs hf hpage hnone result
    simp only [step, publish, hcall, hf, hpool, Option.bind_eq_bind, Option.bind_some]
    exact ⟨_, rfl⟩
  | wake call =>
    obtain ⟨page, f, result, hcall, hres⟩ := ha
    simp only [step, wake, hcall, hres, Option.bind_eq_bind, Option.bind_some]
    exact ⟨_, rfl⟩
  | invalidate page =>
    obtain ⟨pool, heq, -⟩ := invalidate_spec hs.indexed page
    simp only [step, invalidate, heq, Option.bind_eq_bind, Option.bind_some]
    exact ⟨_, rfl⟩
  | invalidateAll => exact ⟨_, rfl⟩
  | setCapacity capacity =>
    obtain ⟨pool, heq, -⟩ := setCapacity_spec hs.indexed capacity
    simp only [step, heq, Option.bind_eq_bind, Option.bind_some]
    exact ⟨_, rfl⟩

/-- A call is served by a load numbered from `n`. -/
def ServedFrom (n : Nat) (c : Call ε τ) : Prop :=
  match c.status with
  | .leading f => n ≤ f
  | .loaded f _ => n ≤ f
  | .waiting f => n ≤ f
  | .returned result => ∀ v, result = .ok v → n ≤ v.flight

/-- From a point on, a page is only served from loads numbered from `n`: the calls numbered from `k`
    are those begun after it. -/
structure Fresh (page : PageId) (n k : Nat) (s : System ε τ) : Prop where
  flights : n ≤ s.flights.length
  cached : ∀ e ∈ s.pool.entries, e.1 = page → n ≤ e.2.flight
  loading : ∀ f, s.pool.loading page = some f → n ≤ f
  calls : ∀ (i : Nat) c, s.calls[i]? = some c → k ≤ i → c.page = page → ServedFrom n c

theorem Fresh.calls_append (h : s.Fresh page n k) {c : Call ε τ} (hc : c.page = page → ServedFrom n c) :
    ∀ (i : Nat) d, (s.calls ++ [c])[i]? = some d → k ≤ i → d.page = page → ServedFrom n d := by
  intro i d hi hk hp
  rw [List.getElem?_append] at hi
  split at hi
  · exact h.calls i d hi hk hp
  · obtain rfl := List.mem_singleton.mp (List.mem_of_getElem? hi)
    exact hc hp

theorem Fresh.calls_set (h : s.Fresh page n k) {j : Nat} {old c : Call ε τ}
    (hj : s.calls[j]? = some old) (hpage : c.page = old.page)
    (hc : old.page = page → ServedFrom n old → ServedFrom n c) :
    ∀ (i : Nat) d, (s.calls.set j c)[i]? = some d → k ≤ i → d.page = page → ServedFrom n d := by
  intro i d hi hk hp
  by_cases hij : j = i
  · subst hij
    rw [List.getElem?_set_self (List.getElem?_eq_some_iff.mp hj).1] at hi
    obtain rfl := Option.some.inj hi
    have hold : old.page = page := hpage ▸ hp
    exact hc hold (h.calls j old hj hk hold)
  · rw [List.getElem?_set_ne hij] at hi
    exact h.calls i d hi hk hp

variable {s' : System ε τ}

theorem enter_fresh {q : PageId} (hs : s.Ok) (h : s.Fresh page n k)
    (hstep : s.enter q = some s') : s'.Fresh page n k := by
  unfold enter at hstep
  split at hstep
  · rename_i i hi
    obtain ⟨slot, hslot, hpage⟩ := hs.indexed.slot hi
    simp only [hslot, Option.bind_eq_bind, Option.bind_some, Option.some.injEq] at hstep
    subst hstep
    obtain ⟨-, hent⟩ := hs.indexed.touch hslot true
    refine ⟨h.flights, fun e he => h.cached e (hent ▸ he), h.loading, h.calls_append fun hq v hv => ?_⟩
    obtain rfl : slot.value = v := Except.ok.inj hv
    exact h.cached _ (mem_entries hslot) (hpage.trans hq)
  · split at hstep
    · rename_i f hf
      obtain rfl := Option.some.inj hstep
      refine ⟨h.flights, h.cached, h.loading, h.calls_append fun hq => ?_⟩
      obtain rfl : q = page := hq
      exact h.loading f hf
    · obtain rfl := Option.some.inj hstep
      refine ⟨h.flights.trans (by simp), h.cached, fun f hf => ?_, h.calls_append fun _ => h.flights⟩
      dsimp only at hf
      by_cases hq : page = q
      · rw [hq, Function.update_self] at hf
        exact Option.some.inj hf ▸ h.flights
      · rw [Function.update_of_ne hq] at hf
        exact h.loading f hf

theorem publish_fresh {call : Nat} (hs : s.Ok) (h : s.Fresh page n k)
    (hstep : s.publish call = some s') : s'.Fresh page n k := by
  unfold publish at hstep
  split at hstep
  · rename_i q f result hcall
    obtain ⟨⟨flight, hf, hpage, hnone⟩, hown⟩ : Call.Ok s.flights ⟨q, .loaded f result⟩ :=
      hs.calls _ (List.mem_of_getElem? hcall)
    obtain ⟨pool, hpool, -, -, hload, hent⟩ := cache_spec hs hf hpage hnone result
    simp only [hf, hpool, Option.bind_eq_bind, Option.bind_some, Option.some.injEq] at hstep
    subst hstep
    refine ⟨by simpa using h.flights, fun e he hp => ?_, fun g hg => ?_, ?_⟩
    · have he' : e ∈ pool.entries := by
        dsimp only at he
        split at he <;> exact he
      rcases hent e he' with he' | ⟨heq, hval, hcur⟩
      · exact h.cached e he' hp
      · rw [hown e.2 hval]
        have hq : q = page := heq.symm.trans hp
        exact h.loading f (hq ▸ hcur)
    · dsimp only at hg
      split at hg
      · by_cases hq : page = q
        · rw [hq] at hg
          dsimp only at hg
          rw [Function.update_self] at hg
          cases hg
        · dsimp only at hg
          rw [Function.update_of_ne hq, hload] at hg
          exact h.loading g hg
      · rw [hload] at hg
        exact h.loading g hg
    · refine h.calls_set hcall rfl fun _ hserved v hv => ?_
      rw [hown v hv]
      exact hserved
  · cases hstep

theorem wake_fresh {call : Nat} (hs : s.Ok) (h : s.Fresh page n k)
    (hstep : s.wake call = some s') : s'.Fresh page n k := by
  unfold wake at hstep
  split at hstep
  · rename_i q f hcall
    simp only [Option.bind_eq_bind, Option.bind_eq_some_iff, Option.some.injEq] at hstep
    obtain ⟨result, ⟨flight, hf, hres⟩, rfl⟩ := hstep
    refine ⟨h.flights, h.cached, h.loading, h.calls_set hcall rfl fun _ hserved v hv => ?_⟩
    subst hv
    rw [hs.own f flight v hf hres]
    exact hserved
  · cases hstep

/-- Every step keeps a page fresh. -/
theorem step_fresh (hs : s.Ok) (h : s.Fresh page n k) (hstep : s.step a = some s') : s'.Fresh page n k := by
  cases a with
  | enter q => exact enter_fresh hs h hstep
  | load call result =>
    simp only [step, load] at hstep
    split at hstep
    · rename_i q f hcall
      obtain rfl := Option.some.inj hstep
      exact ⟨h.flights, h.cached, h.loading, h.calls_set hcall rfl fun _ hserved => hserved⟩
    · cases hstep
  | publish call => exact publish_fresh hs h hstep
  | wake call => exact wake_fresh hs h hstep
  | invalidate q =>
    obtain ⟨pool, heq, -, -, hload, -, hent, -⟩ := invalidate_spec hs.indexed q
    simp only [step, invalidate, heq, Option.bind_eq_bind, Option.bind_some,
      Option.some.injEq] at hstep
    subst hstep
    refine ⟨by simpa [detach] using h.flights, fun e he => h.cached e (hent e he), fun f hf => ?_,
      h.calls⟩
    dsimp only at hf
    by_cases hq : page = q
    · rw [hq, Function.update_self] at hf
      cases hf
    · rw [Function.update_of_ne hq, hload] at hf
      exact h.loading f hf
  | invalidateAll =>
    obtain rfl := Option.some.inj hstep
    exact ⟨by simpa [invalidateAll, detach] using h.flights,
      fun e he => (List.not_mem_nil he).elim, fun f hf => (by cases hf), h.calls⟩
  | setCapacity capacity =>
    obtain ⟨pool, heq, -, -, -, hload, hent⟩ := setCapacity_spec hs.indexed capacity
    simp only [step, heq, Option.bind_eq_bind, Option.bind_some, Option.some.injEq] at hstep
    subst hstep
    exact ⟨h.flights, fun e he => h.cached e (hent e he), fun f hf => h.loading f (hload ▸ hf), h.calls⟩

/-- Calls are never taken back. -/
theorem calls_length_le (hstep : s.step a = some s') :
    s.calls.length ≤ s'.calls.length := by
  cases a <;> simp only [step, enter, load, publish, wake, invalidate, Option.bind_eq_bind] at hstep
  case enter =>
    split at hstep
    · obtain ⟨slot, -, hstep⟩ := Option.bind_eq_some_iff.mp hstep
      rw [← Option.some.inj hstep]
      simp
    · split at hstep <;> rw [← Option.some.inj hstep] <;> simp
  case load =>
    split at hstep
    · rw [← Option.some.inj hstep]
      simp
    · cases hstep
  case publish =>
    split at hstep
    · obtain ⟨flight, -, hstep⟩ := Option.bind_eq_some_iff.mp hstep
      obtain ⟨pool, -, hstep⟩ := Option.bind_eq_some_iff.mp hstep
      rw [← Option.some.inj hstep]
      simp
    · cases hstep
  case wake =>
    split at hstep
    · obtain ⟨result, -, hstep⟩ := Option.bind_eq_some_iff.mp hstep
      rw [← Option.some.inj hstep]
      simp
    · cases hstep
  case invalidate =>
    obtain ⟨pool, -, hstep⟩ := Option.bind_eq_some_iff.mp hstep
    rw [← Option.some.inj hstep]
  case invalidateAll =>
    rw [← Option.some.inj hstep]
    rfl
  case setCapacity =>
    obtain ⟨pool, -, hstep⟩ := Option.bind_eq_some_iff.mp hstep
    rw [← Option.some.inj hstep]

/-- The actions that invalidate a page. -/
def Clears (page : PageId) : Action ε τ → Prop
  | .invalidate q => q = page
  | .invalidateAll => True
  | _ => False

/-- Right after an invalidation the page is neither cached nor loading. -/
theorem clears_fresh (hs : s.Ok) (ha : Clears page a)
    (hstep : s.step a = some s') : s'.Fresh page s'.flights.length s'.calls.length := by
  have hcalls : ∀ (i : Nat) c, s'.calls[i]? = some c → s'.calls.length ≤ i → c.page = page →
      ServedFrom s'.flights.length c := fun i c hi hle _ =>
    absurd (List.getElem?_eq_some_iff.mp hi).1 (Nat.not_lt.mpr hle)
  cases a with
  | invalidate q =>
    obtain rfl : q = page := ha
    obtain ⟨pool, heq, hok, -, -, hnone, -, -⟩ := invalidate_spec hs.indexed q
    simp only [step, invalidate, heq, Option.bind_eq_bind, Option.bind_some,
      Option.some.injEq] at hstep
    subst hstep
    refine ⟨le_rfl, fun e he hp => absurd hp (hok.index_none.mp hnone e he), fun f hf => ?_, hcalls⟩
    dsimp only at hf
    rw [Function.update_self] at hf
    cases hf
  | invalidateAll =>
    obtain rfl := Option.some.inj hstep
    exact ⟨le_rfl, fun e he => (List.not_mem_nil he).elim, fun f hf => (by cases hf), hcalls⟩
  | enter => cases ha
  | load => cases ha
  | publish => cases ha
  | wake => cases ha
  | setCapacity => cases ha

/-- The buffer pool is coherent. In every reachable state the index is a bijection onto at most
    `capacity` slots, the hand is in range, no two pending loads are for one page, a value returned
    for a page came from a load of that page, and no section panics. A call for a page that begins
    after an invalidation of the page returned yields no value of a load that began before it. -/
theorem pool_coherent (capacity : Nat) :
    (∀ (acts : List (Action ε τ)) (s : System ε τ), Runs.run step (new capacity) acts = some s →
      (∀ p i, s.pool.index p = some i ↔ (s.pool.slots[i]?).map Slot.pageId = some p) ∧
      s.pool.slots.length ≤ s.pool.capacity ∧
      (s.pool.hand < s.pool.slots.length ∨ s.pool.slots = [] ∧ s.pool.hand = 0) ∧
      (∀ p f g, Pending s.flights f p → Pending s.flights g p → f = g) ∧
      (∀ c ∈ s.calls, ∀ v, c.status = .returned (.ok v) → FromLoad s.flights c.page v) ∧
      ∀ a, s.Enabled a → ∃ s', s.step a = some s') ∧
    ∀ (pre mid post : List (Action ε τ)) (a : Action ε τ) (page : PageId) (s₁ s₂ s₃ : System ε τ),
      Clears page a → Runs.run step (new capacity) (pre ++ [a]) = some s₁ →
      Runs.run step s₁ mid = some s₂ → Runs.run step s₂ (.enter page :: post) = some s₃ →
      ∀ v, s₃.calls[s₂.calls.length]? = some ⟨page, .returned (.ok v)⟩ →
        s₁.flights.length ≤ v.flight := by
  have hreach : ∀ (acts : List (Action ε τ)) (s : System ε τ),
      Runs.run step (new capacity) acts = some s → s.Ok := fun acts s hrun =>
    Runs.run_invariant (fun _ _ _ hs h => step_ok hs h) (new_ok capacity) hrun
  refine ⟨fun acts s hrun => ?_, fun pre mid post a page s₁ s₂ s₃ ha h₁ h₂ h₃ v hv => ?_⟩
  · have hs := hreach acts s hrun
    refine ⟨hs.indexed.index, hs.bound, hs.indexed.hand, fun p f g hf hg => ?_, fun c hc v hv => ?_,
      fun a => hs.step_isSome⟩
    · exact Option.some.inj (((hs.loading p f).mpr hf).symm.trans ((hs.loading p g).mpr hg))
    · obtain ⟨q, status⟩ := c
      obtain rfl : status = .returned (.ok v) := hv
      exact hs.calls _ hc v rfl
  · obtain ⟨s₀, h₀, hstep⟩ := Runs.run_snoc.mp h₁
    have hkeep : ∀ (s : System ε τ) (a : Action ε τ) (s' : System ε τ), s.Ok ∧ s.Fresh page s₁.flights.length s₁.calls.length →
        step s a = some s' → s'.Ok ∧ s'.Fresh page s₁.flights.length s₁.calls.length :=
      fun s a s' hs h => ⟨step_ok hs.1 h, step_fresh hs.1 hs.2 h⟩
    have hfresh₂ := Runs.run_invariant hkeep ⟨hreach _ _ h₁, clears_fresh (hreach _ _ h₀) ha hstep⟩ h₂
    have hfresh₃ := Runs.run_invariant hkeep hfresh₂ h₃
    have hgrow : ∀ (s : System ε τ) (a : Action ε τ) (s' : System ε τ),
        s₁.calls.length ≤ s.calls.length → step s a = some s' → s₁.calls.length ≤ s'.calls.length :=
      fun s a s' hs h => hs.trans (calls_length_le h)
    have hlater : s₁.calls.length ≤ s₂.calls.length := Runs.run_invariant hgrow le_rfl h₂
    exact hfresh₃.2.calls _ _ hv hlater rfl v rfl

/-- A load that was invalidated while it ran publishes after the load that replaced it. -/
def staleLoad : List (Action Unit Nat) :=
  [.enter 9, .invalidate 9, .enter 9, .load 1 (.ok 91), .publish 1, .load 0 (.ok 90), .publish 0,
    .enter 9]

theorem pool_coherent_staleLoad : ∃ s, Runs.run step (new 4) staleLoad = some s ∧
    s.pool.slots.length ≤ s.pool.capacity := by
  obtain ⟨s, hs⟩ : ∃ s, Runs.run step (new 4) staleLoad = some s :=
    Option.isSome_iff_exists.mp (by decide +kernel)
  exact ⟨s, hs, ((pool_coherent 4).1 staleLoad s hs).2.1⟩

end System

end Jed.Pool
