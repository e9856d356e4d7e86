import Jed.Lib.Runs
import Jed.Pool.State

/-!
# The buffer pool under any interleaving

Calls of `get_or_load` from any number of threads, each in its separate critical sections, next to
invalidations and changes of capacity. A load runs outside the lock, between the section that starts
its flight and the one that publishes it; followers of a flight read its result once it is there.

A flight's number is its place in the order in which loads began. A cached `Arc` is modelled with the
number of the load that allocated it, which stands for the pointer.
-/

namespace Jed.Pool

open PoolState

variable {ε τ : Type}

/-- An `Arc<T>` and the load that allocated it. -/
structure Shared (τ : Type) where
  value : τ
  flight : Nat

/-- `LoadFlight` (`bufferpool.rs:41-45`), and the page it loads. -/
structure Flight (ε τ : Type) where
  page : PageId
  result : Option (Except ε (Shared τ))
  invalidated : Bool

/-- Where a call of `get_or_load` stands. -/
inductive Status (ε τ : Type) where
  | leading (flight : Nat)
  | loaded (flight : Nat) (result : Except ε (Shared τ))
  | waiting (flight : Nat)
  | returned (result : Except ε (Shared τ))

/-- A call of `get_or_load`. -/
structure Call (ε τ : Type) where
  page : PageId
  status : Status ε τ

/-- The pool, the flights begun and the calls made so far. -/
structure System (ε τ : Type) where
  pool : PoolState (Shared τ)
  flights : List (Flight ε τ)
  calls : List (Call ε τ)

/-- One critical section, the end of a load, or a follower's wake-up. -/
inductive Action (ε τ : Type) where
  | enter (page : PageId)
  | load (call : Nat) (result : Except ε τ)
  | publish (call : Nat)
  | wake (call : Nat)
  | invalidate (page : PageId)
  | invalidateAll
  | setCapacity (capacity : Nat)

namespace System

/-- `BufferPool::new`, before any call. -/
def new (capacity : Nat) : System ε τ := ⟨.new capacity, [], []⟩

/-- The first section of `get_or_load` (`bufferpool.rs:123-137`): a hit, a flight to wait for, or a
    flight of its own. -/
def enter (s : System ε τ) (page : PageId) : Option (System ε τ) :=
  match s.pool.index page with
  | some i => do
    let slot ← s.pool.slots[i]?
    some { s with
      pool := { s.pool with slots := s.pool.slots.set i { slot with referenced := true } }
      calls := s.calls ++ [⟨page, .returned (.ok slot.value)⟩] }
  | none =>
    match s.pool.loading page with
    | some f => some { s with calls := s.calls ++ [⟨page, .waiting f⟩] }
    | none =>
      some {
        pool := { s.pool with loading := Function.update s.pool.loading page (some s.flights.length) }
        flights := s.flights ++ [⟨page, none, false⟩]
        calls := s.calls ++ [⟨page, .leading s.flights.length⟩] }

/-- The load itself, outside the lock (`bufferpool.rs:145`). -/
def load (s : System ε τ) (call : Nat) (result : Except ε τ) : Option (System ε τ) :=
  match s.calls[call]? with
  | some ⟨page, .leading f⟩ =>
    some { s with calls := s.calls.set call ⟨page, .loaded f (result.map (⟨·, f⟩))⟩ }
  | _ => none

/-- What publishing caches: nothing if the flight was invalidated or the load failed. -/
def cache (pool : PoolState (Shared τ)) (page : PageId) (invalidated : Bool) :
    Except ε (Shared τ) → Option (PoolState (Shared τ))
  | .ok value => if invalidated then some pool else pool.insert page value
  | .error _ => some pool

/-- The second section of `get_or_load` (`bufferpool.rs:117-164`). -/
def publish (s : System ε τ) (call : Nat) : Option (System ε τ) :=
  match s.calls[call]? with
  | some ⟨page, .loaded f result⟩ => do
    let flight ← s.flights[f]?
    let isCurrent := s.pool.loading page == some f
    let pool ← cache s.pool page flight.invalidated result
    some {
      pool := if isCurrent then { pool with loading := Function.update pool.loading page none } else pool
      flights := s.flights.set f { flight with result := some result }
      calls := s.calls.set call ⟨page, .returned result⟩ }
  | _ => none

/-- `LoadFlight::wait` (`bufferpool.rs:56-68`), when the result is there. -/
def wake (s : System ε τ) (call : Nat) : Option (System ε τ) :=
  match s.calls[call]? with
  | some ⟨page, .waiting f⟩ => do
    let result ← (s.flights[f]?).bind Flight.result
    some { s with calls := s.calls.set call ⟨page, .returned result⟩ }
  | _ => none

/-- `LoadFlight::invalidate` on the flights `p` picks. -/
def detach (flights : List (Flight ε τ)) (p : Nat → Flight ε τ → Bool) : List (Flight ε τ) :=
  flights.mapIdx (fun f flight => if p f flight then { flight with invalidated := true } else flight)

/-- `BufferPool::invalidate` (`bufferpool.rs:207-213`). -/
def invalidate (s : System ε τ) (page : PageId) : Option (System ε τ) := do
  let pool ← s.pool.invalidate page
  some { s with
    pool := { pool with loading := Function.update pool.loading page none }
    flights := detach s.flights (fun f _ => pool.loading page == some f) }

/-- `invalidate_all` (`bufferpool.rs:219-227`). -/
def invalidateAll (s : System ε τ) : System ε τ :=
  { s with
    pool := s.pool.clear
    flights := detach s.flights (fun f flight => s.pool.loading flight.page == some f) }

/-- One step; `none` where the action is not enabled, or panics. -/
def step (s : System ε τ) : Action ε τ → Option (System ε τ)
  | .enter page => s.enter page
  | .load call result => s.load call result
  | .publish call => s.publish call
  | .wake call => s.wake call
  | .invalidate page => s.invalidate page
  | .invalidateAll => some s.invalidateAll
  | .setCapacity capacity => do
    let pool ← s.pool.setCapacity capacity
    some { s with pool := pool }

end System

/-- The flight a call leads. -/
def Call.leads (c : Call ε τ) : Option Nat :=
  match c.status with
  | .leading f => some f
  | .loaded f _ => some f
  | _ => none

/-- A value was allocated by a load of `page` that has finished. -/
def FromLoad (flights : List (Flight ε τ)) (page : PageId) (v : Shared τ) : Prop :=
  ∃ flight, flights[v.flight]? = some flight ∧ flight.page = page ∧ flight.result = some (.ok v)

/-- A call and the flight it is about agree. -/
def Call.Ok (flights : List (Flight ε τ)) (c : Call ε τ) : Prop :=
  match c.status with
  | .leading f => ∃ flight, flights[f]? = some flight ∧ flight.page = c.page ∧ flight.result = none
  | .loaded f result => (∃ flight, flights[f]? = some flight ∧ flight.page = c.page ∧
      flight.result = none) ∧ ∀ v, result = .ok v → v.flight = f
  | .waiting f => ∃ flight, flights[f]? = some flight ∧ flight.page = c.page
  | .returned result => ∀ v, result = .ok v → FromLoad flights c.page v

/-- A flight whose load can still be published and cached. -/
def Pending (flights : List (Flight ε τ)) (f : Nat) (page : PageId) : Prop :=
  ∃ flight, flights[f]? = some flight ∧ flight.page = page ∧ flight.result = none ∧
    flight.invalidated = false

/-- The invariant: the index is a bijection onto at most `capacity` slots, `loading` knows exactly the
    pending flights, none of which loads a cached page, and every value came from a load of its
    page. -/
structure System.Ok (s : System ε τ) : Prop where
  indexed : s.pool.Indexed
  bound : s.pool.slots.length ≤ s.pool.capacity
  loading : ∀ p f, s.pool.loading p = some f ↔ Pending s.flights f p
  absent : ∀ p f, s.pool.loading p = some f → s.pool.index p = none
  cached : ∀ e ∈ s.pool.entries, FromLoad s.flights e.1 e.2
  own : ∀ (f : Nat) (flight : Flight ε τ) v, s.flights[f]? = some flight → flight.result = some (.ok v) → v.flight = f
  calls : ∀ c ∈ s.calls, c.Ok s.flights
  leaders : ∀ (i j : Nat) (c d : Call ε τ) f, s.calls[i]? = some c → s.calls[j]? = some d → c.leads = some f →
    d.leads = some f → i = j

namespace System

theorem new_ok (capacity : Nat) : (new capacity : System ε τ).Ok where
  indexed := .new capacity
  bound := Nat.zero_le _
  loading := fun p f => ⟨fun h => (by cases h), fun ⟨_, h, _⟩ => (by cases h)⟩
  absent := fun p f h => by cases h
  cached := fun e he => by cases he
  own := fun f flight v h => by cases h
  calls := fun c hc => by cases hc
  leaders := fun i j c d f h => by cases h

/-- Flights that keep their page, their result once they have one, and the calls' flights
    unfinished. -/
structure Keeps (flights flights' : List (Flight ε τ)) (leads : Option Nat) : Prop where
  keep : ∀ (f : Nat) flight, flights[f]? = some flight → ∃ flight' : Flight ε τ,
    flights'[f]? = some flight' ∧ flight'.page = flight.page ∧
      (flight.result ≠ none ∨ leads = some f → flight'.result = flight.result)

variable {flights flights' : List (Flight ε τ)} {page : PageId} {leads : Option Nat}

theorem Keeps.fromLoad (h : Keeps flights flights' leads) {v : Shared τ}
    (hv : FromLoad flights page v) : FromLoad flights' page v := by
  obtain ⟨flight, hf, hp, hr⟩ := hv
  obtain ⟨flight', hf', hp', hr'⟩ := h.keep _ _ hf
  exact ⟨flight', hf', hp'.trans hp, (hr' (.inl (by simp [hr]))).trans hr⟩

variable {c : Call ε τ}

theorem Keeps.call (h : Keeps flights flights' c.leads) (hc : c.Ok flights) : c.Ok flights' := by
  obtain ⟨page, status⟩ := c
  have hlead : ∀ f, Call.leads (⟨page, status⟩ : Call ε τ) = some f →
      (∃ flight, flights[f]? = some flight ∧ flight.page = page ∧ flight.result = none) →
      ∃ flight, flights'[f]? = some flight ∧ flight.page = page ∧ flight.result = none := by
    rintro f hf ⟨flight, hget, hp, hr⟩
    obtain ⟨flight', hget', hp', hr'⟩ := h.keep f flight hget
    exact ⟨flight', hget', hp'.trans hp, (hr' (.inr hf)).trans hr⟩
  cases status with
  | leading f => exact hlead f rfl hc
  | loaded f result => exact ⟨hlead f rfl hc.1, hc.2⟩
  | waiting f =>
    obtain ⟨flight, hget, hp⟩ := hc
    obtain ⟨flight', hget', hp', -⟩ := h.keep f flight hget
    exact ⟨flight', hget', hp'.trans hp⟩
  | returned result => exact fun v hv => h.fromLoad (hc v hv)

theorem Keeps.append (flights : List (Flight ε τ)) (flight : Flight ε τ) (leads : Option Nat) :
    Keeps flights (flights ++ [flight]) leads :=
  ⟨fun _ old h => ⟨old, (List.getElem?_append_left (List.getElem?_eq_some_iff.mp h).1).trans h, rfl,
    fun _ => rfl⟩⟩

variable {f : Nat} {flight : Flight ε τ}

theorem getElem?_detach {p : Nat → Flight ε τ → Bool}
    (h : flights[f]? = some flight) :
    (detach flights p)[f]? =
      some (if p f flight then { flight with invalidated := true } else flight) := by
  simp [detach, List.getElem?_mapIdx, h]

theorem Keeps.detach (flights : List (Flight ε τ)) (p : Nat → Flight ε τ → Bool)
    (leads : Option Nat) : Keeps flights (detach flights p) leads := by
  refine ⟨fun _ flight h => ⟨_, getElem?_detach h, ?_, fun _ => ?_⟩⟩ <;> split <;> rfl

/-- Finishing a flight changes nothing for a call that does not lead it. -/
theorem Keeps.finish
    {result : Except ε (Shared τ)} (hf : flights[f]? = some flight) (hnone : flight.result = none)
    (hl : leads ≠ some f) :
    Keeps flights (flights.set f { flight with result := some result }) leads := by
  obtain ⟨hlt, -⟩ := List.getElem?_eq_some_iff.mp hf
  refine ⟨fun g old h => ?_⟩
  by_cases hgf : g = f
  · subst hgf
    obtain rfl : flight = old := Option.some.inj (hf.symm.trans h)
    refine ⟨_, List.getElem?_set_self hlt, rfl, fun hor => ?_⟩
    rcases hor with hor | hor
    · exact absurd hnone hor
    · exact absurd hor hl
  · exact ⟨old, (List.getElem?_set_ne (Ne.symm hgf)).trans h, rfl, fun _ => rfl⟩

variable {s : System ε τ} {pool : PoolState (Shared τ)}

/-- A pool that caches nothing new, for the same flights. -/
theorem Ok.withPool (hs : s.Ok) (hi : pool.Indexed)
    (hlen : pool.slots.length ≤ pool.capacity) (hload : pool.loading = s.pool.loading)
    (hent : ∀ e ∈ pool.entries, e ∈ s.pool.entries) : { s with pool := pool }.Ok where
  indexed := hi
  bound := hlen
  loading := fun p f => by rw [hload]; exact hs.loading p f
  absent := fun p f h => by
    rw [hload] at h
    exact hi.index_none.mpr fun e he => hs.indexed.index_none.mp (hs.absent p f h) e (hent e he)
  cached := fun e he => hs.cached e (hent e he)
  own := hs.own
  calls := hs.calls
  leaders := hs.leaders

/-- A new call that leads nothing. -/
theorem Ok.addCall (hs : s.Ok) (hc : c.Ok s.flights) (hl : c.leads = none) : { s with calls := s.calls ++ [c] }.Ok where
  indexed := hs.indexed
  bound := hs.bound
  loading := hs.loading
  absent := hs.absent
  cached := hs.cached
  own := hs.own
  calls := fun d hd => by
    rcases List.mem_append.mp hd with hd | hd
    · exact hs.calls d hd
    · exact List.mem_singleton.mp hd ▸ hc
  leaders := fun i j d e f hi hj hd he => by
    have hold : ∀ (i : Nat) (d : Call ε τ), (s.calls ++ [c])[i]? = some d → d.leads = some f →
        s.calls[i]? = some d := by
      intro i d hi hd
      rw [List.getElem?_append] at hi
      split at hi
      · exact hi
      · have hmem := List.mem_singleton.mp (List.mem_of_getElem? hi)
        rw [hmem, hl] at hd
        cases hd
    exact hs.leaders i j d e f (hold i d hi hd) (hold j e hj he) hd he

/-- A call that moves on, leading at most the flight it led. -/
theorem Ok.setCall (hs : s.Ok) {i : Nat} {old : Call ε τ}
    (hi : s.calls[i]? = some old) (hc : c.Ok s.flights) (hl : ∀ f, c.leads = some f → old.leads = some f) :
    { s with calls := s.calls.set i c }.Ok where
  indexed := hs.indexed
  bound := hs.bound
  loading := hs.loading
  absent := hs.absent
  cached := hs.cached
  own := hs.own
  calls := fun d hd => by
    rcases List.mem_or_eq_of_mem_set hd with hd | rfl
    · exact hs.calls d hd
    · exact hc
  leaders := fun j k d e f hj hk hd he => by
    have hold : ∀ (j : Nat) (d : Call ε τ), (s.calls.set i c)[j]? = some d → d.leads = some f →
        ∃ d', s.calls[j]? = some d' ∧ d'.leads = some f := by
      intro j d hj hd
      by_cases hij : i = j
      · subst hij
        obtain ⟨hlt, -⟩ := List.getElem?_eq_some_iff.mp hi
        rw [List.getElem?_set_self hlt] at hj
        obtain rfl := Option.some.inj hj
        exact ⟨old, hi, hl f hd⟩
      · rw [List.getElem?_set_ne hij] at hj
        exact ⟨d, hj, hd⟩
    obtain ⟨d', hj', hd'⟩ := hold j d hj hd
    obtain ⟨e', hk', he'⟩ := hold k e hk he
    exact hs.leaders j k d' e' f hj' hk' hd' he'

/-- A call that starts a flight for a page neither cached nor loading. -/
theorem Ok.lead (hs : s.Ok) (hi : s.pool.index page = none) (hload : s.pool.loading page = none) :
    (⟨{ s.pool with loading := Function.update s.pool.loading page (some s.flights.length) },
      s.flights ++ [⟨page, none, false⟩], s.calls ++ [⟨page, .leading s.flights.length⟩]⟩ :
        System ε τ).Ok where
  indexed := ⟨hs.indexed.capacity, hs.indexed.index, hs.indexed.hand⟩
  bound := hs.bound
  loading := fun p f => by
    have hpend : Pending (s.flights ++ [⟨page, none, false⟩]) f p ↔
        Pending s.flights f p ∨ f = s.flights.length ∧ page = p := by
      unfold Pending
      rcases Nat.lt_trichotomy f s.flights.length with hlt | heq | hgt
      · rw [List.getElem?_append_left hlt]
        exact ⟨.inl, fun h => h.resolve_right fun h' => absurd h'.1 (by omega)⟩
      · subst heq
        simp
      · have hpast : f ≥ (s.flights ++ [(⟨page, none, false⟩ : Flight ε τ)]).length := by simpa using hgt
        rw [List.getElem?_eq_none hpast, List.getElem?_eq_none hgt.le]
        exact ⟨fun ⟨_, h, _⟩ => (by cases h), fun h => h.elim (fun ⟨_, h, _⟩ => (by cases h))
          fun h' => absurd h'.1 (by omega)⟩
    dsimp only
    rw [hpend, ← hs.loading p f]
    by_cases hp : p = page
    · subst hp
      rw [Function.update_self, hload]
      exact ⟨fun h => .inr ⟨(Option.some.inj h).symm, rfl⟩,
        fun h => h.elim (fun h => by cases h) (fun h => by rw [h.1])⟩
    · rw [Function.update_of_ne hp]
      exact ⟨.inl, fun h => h.resolve_right fun h' => hp h'.2.symm⟩
  absent := fun p f h => by
    dsimp only at h ⊢
    by_cases hp : p = page
    · exact hp ▸ hi
    · rw [Function.update_of_ne hp] at h
      exact hs.absent p f h
  cached := fun e he => (Keeps.append s.flights _ none).fromLoad (hs.cached e he)
  own := fun f flight v hf hv => by
    rw [List.getElem?_append] at hf
    split at hf
    · exact hs.own f flight v hf hv
    · rw [List.mem_singleton.mp (List.mem_of_getElem? hf)] at hv
      cases hv
  calls := fun c hc => by
    rcases List.mem_append.mp hc with hc | hc
    · exact (Keeps.append s.flights _ _).call (hs.calls c hc)
    · rw [List.mem_singleton.mp hc]
      exact ⟨_, List.getElem?_concat_length, rfl, rfl⟩
  leaders := fun i j c d f hi hj hc hd => by
    have hold : ∀ (i : Nat) (c : Call ε τ), (s.calls ++ [⟨page, .leading s.flights.length⟩])[i]? = some c →
        c.leads = some f → (s.calls[i]? = some c ∧ f < s.flights.length) ∨
          i = s.calls.length ∧ f = s.flights.length := by
      intro i c hi hc
      rw [List.getElem?_append] at hi
      split at hi
      · refine .inl ⟨hi, ?_⟩
        have hok := hs.calls c (List.mem_of_getElem? hi)
        obtain ⟨p, status⟩ := c
        cases status with
        | leading g =>
          obtain rfl := Option.some.inj hc
          obtain ⟨flight, hget, -⟩ := hok
          exact (List.getElem?_eq_some_iff.mp hget).1
        | loaded g result =>
          obtain rfl := Option.some.inj hc
          obtain ⟨⟨flight, hget, -⟩, -⟩ := hok
          exact (List.getElem?_eq_some_iff.mp hget).1
        | waiting g => cases hc
        | returned r => cases hc
      · have hlt := (List.getElem?_eq_some_iff.mp hi).1
        rw [List.mem_singleton.mp (List.mem_of_getElem? hi)] at hc
        refine .inr ⟨?_, (Option.some.inj hc).symm⟩
        simp only [List.length_singleton] at hlt
        omega
    rcases hold i c hi hc with ⟨hi', hlt⟩ | ⟨hi', heq⟩
    · rcases hold j d hj hd with ⟨hj', -⟩ | ⟨-, heq⟩
      · exact hs.leaders i j c d f hi' hj' hc hd
      · omega
    · rcases hold j d hj hd with ⟨-, hlt⟩ | ⟨hj', -⟩
      · omega
      · omega

/-- Detaching the flights that `loading` no longer knows. -/
theorem Ok.detach (hs : s.Ok) (hi : pool.Indexed)
    (hlen : pool.slots.length ≤ pool.capacity) (hent : ∀ e ∈ pool.entries, e ∈ s.pool.entries)
    (p : Nat → Flight ε τ → Bool)
    (hload : ∀ q f, pool.loading q = some f ↔
      s.pool.loading q = some f ∧ ∀ flight, s.flights[f]? = some flight → p f flight = false) :
    (⟨pool, System.detach s.flights p, s.calls⟩ : System ε τ).Ok where
  indexed := hi
  bound := hlen
  loading := fun q f => by
    rw [hload, hs.loading]
    constructor
    · rintro ⟨⟨flight, hget, hpage, hres, hinv⟩, hkeep⟩
      refine ⟨flight, ?_, hpage, hres, hinv⟩
      rw [getElem?_detach hget, hkeep flight hget]
      rfl
    · rintro ⟨flight, hget, hpage, hres, hinv⟩
      cases hold : s.flights[f]? with
      | none => simp [System.detach, List.getElem?_mapIdx, hold] at hget
      | some old =>
        rw [getElem?_detach hold] at hget
        obtain rfl := Option.some.inj hget
        cases hp : p f old with
        | true => simp [hp] at hinv
        | false =>
          simp only [hp, Bool.false_eq_true, if_false] at hpage hres hinv
          refine ⟨⟨old, hold, hpage, hres, hinv⟩, fun flight h => ?_⟩
          exact Option.some.inj h ▸ hp
  absent := fun q f h =>
    hi.index_none.mpr fun e he =>
      hs.indexed.index_none.mp (hs.absent q f ((hload q f).mp h).1) e (hent e he)
  cached := fun e he => (Keeps.detach s.flights p none).fromLoad (hs.cached e (hent e he))
  own := fun f flight v hf hv => by
    cases hold : s.flights[f]? with
    | none => simp [System.detach, List.getElem?_mapIdx, hold] at hf
    | some old =>
      rw [getElem?_detach hold] at hf
      obtain rfl := Option.some.inj hf
      refine hs.own f old v hold ?_
      split at hv <;> exact hv
  calls := fun c hc => (Keeps.detach s.flights p c.leads).call (hs.calls c hc)
  leaders := hs.leaders

/-- What a publishing flight leaves in the pool. -/
theorem cache_spec (hs : s.Ok)
    (hf : s.flights[f]? = some flight) (hpage : flight.page = page) (hnone : flight.result = none)
    (result : Except ε (Shared τ)) :
    ∃ pool, cache s.pool page flight.invalidated result = some pool ∧ pool.Indexed ∧
      pool.slots.length ≤ pool.capacity ∧ pool.loading = s.pool.loading ∧
      ∀ e ∈ pool.entries, e ∈ s.pool.entries ∨
        e.1 = page ∧ result = .ok e.2 ∧ s.pool.loading page = some f := by
  cases result with
  | error e => exact ⟨s.pool, rfl, hs.indexed, hs.bound, rfl, fun e he => .inl he⟩
  | ok value =>
    cases hinv : flight.invalidated with
    | true => exact ⟨s.pool, rfl, hs.indexed, hs.bound, rfl, fun e he => .inl he⟩
    | false =>
      have hcur : s.pool.loading page = some f :=
        (hs.loading page f).mpr ⟨flight, hf, hpage, hnone, hinv⟩
      obtain ⟨pool, heq, hok, hlen, hload, hent⟩ :=
        insert_spec hs.indexed hs.bound value (hs.absent page f hcur)
      refine ⟨pool, heq, hok, hlen, hload, fun e he => ?_⟩
      rcases hent e he with rfl | he
      · exact .inr ⟨rfl, rfl, hcur⟩
      · exact .inl he

variable {s' : System ε τ} {call : Nat}

theorem publish_ok (hs : s.Ok) (h : s.publish call = some s') :
    s'.Ok := by
  unfold publish at h
  split at h
  · rename_i page f result hcall
    have hcallOk : Call.Ok s.flights ⟨page, .loaded f result⟩ := hs.calls _ (List.mem_of_getElem? hcall)
    obtain ⟨⟨flight, hf, hpage, hnone⟩, hown⟩ := hcallOk
    have hpage : flight.page = page := hpage
    obtain ⟨pool, hpool, hok, hlen, hload, hent⟩ := cache_spec hs hf hpage hnone result
    simp only [hf, hpool, Option.bind_eq_bind, Option.bind_some, Option.some.injEq] at h
    obtain ⟨hlt, -⟩ := List.getElem?_eq_some_iff.mp hf
    have hkeeps : ∀ leads, leads ≠ some f → Keeps s.flights
        (s.flights.set f { flight with result := some result }) leads :=
      fun leads hl => Keeps.finish hf hnone hl
    have hdone : ∀ v, result = .ok v →
        FromLoad (s.flights.set f { flight with result := some result }) page v := by
      rintro v rfl
      obtain rfl := hown v rfl
      exact ⟨_, List.getElem?_set_self hlt, hpage, rfl⟩
    subst h
    have hpoolEq : ∀ b : Bool, (if b then { pool with loading := Function.update pool.loading page none }
        else pool).slots = pool.slots ∧ (if b then { pool with
        loading := Function.update pool.loading page none } else pool).index = pool.index := by
      intro b
      cases b <;> exact ⟨rfl, rfl⟩
    have hsame : ∀ q, s.pool.loading q = some f → q = page := by
      intro q hq
      obtain ⟨flight', hf', hp', -⟩ := (hs.loading q f).mp hq
      rw [hf] at hf'
      rw [← hp', ← Option.some.inj hf', hpage]
    -- `loading` forgets exactly this flight
    have hloading : ∀ q g, (if s.pool.loading page == some f then
        { pool with loading := Function.update pool.loading page none } else pool).loading q = some g ↔
          s.pool.loading q = some g ∧ g ≠ f := by
      intro q g
      by_cases hcur : s.pool.loading page = some f
      · rw [if_pos (by simpa using hcur)]
        by_cases hq : q = page
        · subst hq
          dsimp only
          rw [Function.update_self, hcur]
          exact iff_of_false (fun h => by cases h) fun h => h.2 (Option.some.inj h.1).symm
        · dsimp only
          rw [Function.update_of_ne hq, hload]
          refine (and_iff_left_of_imp fun hg hgf => ?_).symm
          exact hq (hsame q (hgf ▸ hg))
      · rw [if_neg (by simpa using hcur), hload]
        refine (and_iff_left_of_imp fun hg hgf => hcur ?_).symm
        have hg' : s.pool.loading q = some f := hgf ▸ hg
        exact hsame q hg' ▸ hg'
    refine ⟨?_, ?_, fun q g => ?_, fun q g hq => ?_, fun e he => ?_, fun g old v hg hv => ?_,
      fun c hc => ?_, fun i j c d g hi hj hc hd => ?_⟩
    · dsimp only
      split
      · exact ⟨hok.capacity, hok.index, hok.hand⟩
      · exact hok
    · dsimp only
      split <;> exact hlen
    · dsimp only
      rw [hloading q g, hs.loading q g]
      constructor
      · rintro ⟨⟨old, hget, hp, hr, hinv⟩, hne⟩
        exact ⟨old, (List.getElem?_set_ne (Ne.symm hne)).trans hget, hp, hr, hinv⟩
      · rintro ⟨old, hget, hp, hr, hinv⟩
        by_cases hgf : f = g
        · subst hgf
          rw [List.getElem?_set_self hlt] at hget
          rw [← Option.some.inj hget] at hr
          cases hr
        · rw [List.getElem?_set_ne hgf] at hget
          exact ⟨⟨old, hget, hp, hr, hinv⟩, Ne.symm hgf⟩
    · obtain ⟨hq, hgf⟩ := (hloading q g).mp hq
      dsimp only
      rw [(hpoolEq _).2, hok.index_none]
      intro e he heq
      rcases hent e he with he | ⟨hep, -, hcur⟩
      · exact hs.indexed.index_none.mp (hs.absent q g hq) e he heq
      · rw [← heq, hep, hcur] at hq
        exact hgf (Option.some.inj hq).symm
    · have he' : e ∈ pool.entries := by
        simpa only [entries, (hpoolEq _).1] using he
      rcases hent e he' with he' | ⟨hep, heq, -⟩
      · exact (hkeeps none (by simp)).fromLoad (hs.cached e he')
      · exact hep ▸ hdone e.2 heq
    · by_cases hgf : f = g
      · subst hgf
        rw [List.getElem?_set_self hlt] at hg
        rw [← Option.some.inj hg] at hv
        exact hown v (Option.some.inj hv)
      · rw [List.getElem?_set_ne hgf] at hg
        exact hs.own g old v hg hv
    · rcases List.mem_iff_getElem?.mp hc with ⟨i, hi⟩
      dsimp only at hi
      by_cases hic : call = i
      · subst hic
        rw [List.getElem?_set_self (List.getElem?_eq_some_iff.mp hcall).1] at hi
        rw [← Option.some.inj hi]
        exact hdone
      · rw [List.getElem?_set_ne hic] at hi
        refine (hkeeps c.leads fun hl => hic ?_).call (hs.calls c (List.mem_of_getElem? hi))
        exact hs.leaders call i _ c f hcall hi rfl hl
    · have hold : ∀ (i : Nat) (c : Call ε τ), (s.calls.set call ⟨page, .returned result⟩)[i]? = some c →
          c.leads = some g → s.calls[i]? = some c := by
        intro i c hi hc
        by_cases hic : call = i
        · subst hic
          rw [List.getElem?_set_self (List.getElem?_eq_some_iff.mp hcall).1] at hi
          rw [← Option.some.inj hi] at hc
          cases hc
        · rwa [List.getElem?_set_ne hic] at hi
      exact hs.leaders i j c d g (hold i c hi hc) (hold j d hj hd) hc hd
  · cases h

theorem enter_ok (hs : s.Ok) (h : s.enter page = some s') :
    s'.Ok := by
  unfold enter at h
  split at h
  · rename_i i hi
    obtain ⟨slot, hslot, hpage⟩ := hs.indexed.slot hi
    simp only [hslot, Option.bind_eq_bind, Option.bind_some, Option.some.injEq] at h
    subst h
    obtain ⟨hok, hent⟩ := hs.indexed.touch hslot true
    have hpool := hs.withPool hok (by simpa using hs.bound) rfl (fun e he => hent ▸ he)
    refine hpool.addCall (fun v hv => ?_) rfl
    obtain rfl : slot.value = v := Except.ok.inj hv
    exact hpage ▸ hs.cached _ (mem_entries hslot)
  · rename_i hi
    split at h
    · rename_i f hf
      obtain rfl := Option.some.inj h
      obtain ⟨flight, hget, hp, -⟩ := (hs.loading page f).mp hf
      exact hs.addCall ⟨flight, hget, hp⟩ rfl
    · rename_i hload
      obtain rfl := Option.some.inj h
      exact hs.lead hi hload

theorem load_ok {result : Except ε τ} (hs : s.Ok) (h : s.load call result = some s') : s'.Ok := by
  unfold load at h
  split at h
  · rename_i page f hcall
    obtain rfl := Option.some.inj h
    have hlead : Call.Ok s.flights ⟨page, .leading f⟩ := hs.calls _ (List.mem_of_getElem? hcall)
    refine hs.setCall hcall ⟨hlead, fun v hv => ?_⟩ (fun g hg => hg)
    cases result with
    | error e => cases hv
    | ok value =>
      obtain rfl := Except.ok.inj hv
      rfl
  · cases h

theorem wake_ok (hs : s.Ok) (h : s.wake call = some s') :
    s'.Ok := by
  unfold wake at h
  split at h
  · rename_i page f hcall
    simp only [Option.bind_eq_bind, Option.bind_eq_some_iff, Option.some.injEq] at h
    obtain ⟨result, ⟨flight, hf, hres⟩, rfl⟩ := h
    obtain ⟨flight', hf', hp⟩ : Call.Ok s.flights ⟨page, .waiting f⟩ :=
      hs.calls _ (List.mem_of_getElem? hcall)
    obtain rfl : flight = flight' := Option.some.inj (hf.symm.trans hf')
    refine hs.setCall hcall (fun v hv => ?_) (fun g hg => by cases hg)
    subst hv
    obtain rfl := hs.own f flight v hf hres
    exact ⟨flight, hf, hp, hres⟩
  · cases h

theorem invalidate_ok (hs : s.Ok) (h : s.invalidate page = some s') : s'.Ok := by
  obtain ⟨pool, heq, hok, hcap, hload, -, hent, hlen⟩ := invalidate_spec hs.indexed page
  simp only [invalidate, heq, Option.bind_eq_bind, Option.bind_some, Option.some.injEq] at h
  subst h
  have hbound := hs.bound
  have hok' : { pool with loading := Function.update pool.loading page none }.Indexed :=
    ⟨hok.capacity, hok.index, hok.hand⟩
  refine hs.detach hok' ?_ hent _ fun q f => ?_
  · dsimp only
    omega
  · dsimp only
    rw [hload]
    by_cases hq : q = page
    · subst hq
      rw [Function.update_self]
      refine iff_of_false (fun h => by cases h) fun ⟨hf, hkeep⟩ => ?_
      obtain ⟨flight, hget, -⟩ := (hs.loading q f).mp hf
      simpa [hf] using hkeep flight hget
    · rw [Function.update_of_ne hq]
      refine (and_iff_left_of_imp fun hf flight hget => ?_).symm
      obtain ⟨flight', hget', hp', hnone', hinv'⟩ := (hs.loading q f).mp hf
      rw [beq_eq_false_iff_ne]
      intro hcur
      obtain ⟨flight'', hget'', hp'', -⟩ := (hs.loading page f).mp hcur
      rw [hget'] at hget''
      exact hq (hp' ▸ Option.some.inj hget'' ▸ hp'')

theorem invalidateAll_ok (hs : s.Ok) : s.invalidateAll.Ok := by
  refine hs.detach hs.indexed.clear (Nat.zero_le _) (fun e he => (List.not_mem_nil he).elim) _ fun q f => ?_
  · refine iff_of_false (fun h => by cases h) fun ⟨hf, hkeep⟩ => ?_
    obtain ⟨flight, hget, hp, -⟩ := (hs.loading q f).mp hf
    simpa [hp, hf] using hkeep flight hget

/-- Every step keeps the invariant. -/
theorem step_ok {a : Action ε τ} (hs : s.Ok) (h : s.step a = some s') :
    s'.Ok := by
  cases a with
  | enter page => exact enter_ok hs h
  | load call result => exact load_ok hs h
  | publish call => exact publish_ok hs h
  | wake call => exact wake_ok hs h
  | invalidate page => exact invalidate_ok hs h
  | invalidateAll => exact Option.some.inj h ▸ invalidateAll_ok hs
  | setCapacity capacity =>
    obtain ⟨pool, heq, hok, hlen, -, hload, hent⟩ := setCapacity_spec hs.indexed capacity
    simp only [step, heq, Option.bind_eq_bind, Option.bind_some, Option.some.injEq] at h
    exact h ▸ hs.withPool hok hlen hload hent

end System

end Jed.Pool
