import Mathlib.Data.Finset.Card
import Mathlib.Data.Finset.Sort
import Mathlib.Data.Nat.Digits.Lemmas
import Mathlib.Tactic.Linarith

/-!
# The page table of the buffer pool

The short critical sections of the CLOCK cache: an index from page ids to slots, a clock hand, and
the loads in flight. An operation returns `none` where the code would panic (an index outside the
slots, a remainder by zero).
-/

namespace Jed.Pool

/-- A page id (`u32`). -/
abbrev PageId := UInt32

/-- `Slot` (`bufferpool.rs:32-36`). -/
structure Slot (τ : Type) where
  pageId : PageId
  value : τ
  referenced : Bool

/-- `PoolState` (`bufferpool.rs:86-92`). A flight is known by its number. -/
structure PoolState (τ : Type) where
  capacity : Nat
  slots : List (Slot τ)
  index : PageId → Option Nat
  hand : Nat
  loading : PageId → Option Nat

namespace PoolState

variable {τ : Type}

/-- `BufferPool::new` (`bufferpool.rs:101-112`). -/
def new (capacity : Nat) : PoolState τ := ⟨max capacity 1, [], fun _ => none, 0, fun _ => none⟩

/-- `evict_slot` (`bufferpool.rs:255-265`): the slot under the hand, once its reference bit is clear. -/
def evictSlot (s : PoolState τ) : Option (Nat × PoolState τ) :=
  match _h : s.slots[s.hand]? with
  | none => none
  | some slot =>
    let hand := (s.hand + 1) % s.slots.length
    if _href : slot.referenced then
      evictSlot { s with hand := hand, slots := s.slots.set s.hand { slot with referenced := false } }
    else some (s.hand, { s with hand := hand })
termination_by s.slots.countP Slot.referenced
decreasing_by
  obtain ⟨hlt, hget⟩ := List.getElem?_eq_some_iff.mp _h
  have hpos : 0 < s.slots.countP Slot.referenced :=
    List.countP_pos_iff.mpr ⟨slot, List.mem_of_getElem? _h, _href⟩
  rw [List.countP_set hlt, hget, if_pos _href]
  simp only [Bool.false_eq_true, if_false]
  omega

/-- `PoolState::insert` (`bufferpool.rs:232-250`). -/
def insert (s : PoolState τ) (pageId : PageId) (value : τ) : Option (PoolState τ) :=
  if s.slots.length < s.capacity then
    some { s with
      index := Function.update s.index pageId (some s.slots.length)
      slots := s.slots ++ [⟨pageId, value, false⟩] }
  else do
    let (victim, s) ← s.evictSlot
    let slot ← s.slots[victim]?
    some { s with
      index := Function.update (Function.update s.index slot.pageId none) pageId (some victim)
      slots := s.slots.set victim ⟨pageId, value, false⟩ }

/-- `PoolState::invalidate` (`bufferpool.rs:277-291`): the last slot is swapped into the hole. -/
def invalidate (s : PoolState τ) (page : PageId) : Option (PoolState τ) :=
  match s.index page with
  | none => some s
  | some i => do
    let hole ← s.slots[i]?
    let last ← s.slots[s.slots.length - 1]?
    let index := Function.update s.index page none
    let (slots, index) :=
      if i ≠ s.slots.length - 1 then
        ((s.slots.set i last).set (s.slots.length - 1) hole,
          Function.update index last.pageId (some i))
      else (s.slots, index)
    let slots := slots.dropLast
    some { s with
      slots := slots
      index := index
      hand := if slots.isEmpty then 0 else s.hand % slots.length }

/-- The loop of `set_capacity` (`bufferpool.rs:187-191`); `none` when the slots do not come down to the
    capacity within `fuel` turns. -/
def shrink : Nat → PoolState τ → Option (PoolState τ)
  | fuel, s =>
    if s.slots.length ≤ s.capacity then some s
    else
      match fuel with
      | 0 => none
      | fuel + 1 => do
        let (victim, s) ← s.evictSlot
        let slot ← s.slots[victim]?
        let s ← s.invalidate slot.pageId
        shrink fuel s

/-- `set_capacity` (`bufferpool.rs:184-192`). -/
def setCapacity (s : PoolState τ) (capacity : Nat) : Option (PoolState τ) :=
  shrink s.slots.length { s with capacity := max capacity 1 }

/-- What `invalidate_all` leaves of the table (`bufferpool.rs:223-226`). -/
def clear (s : PoolState τ) : PoolState τ :=
  { s with slots := [], index := fun _ => none, hand := 0, loading := fun _ => none }

/-- The index is a bijection between the pages it knows and the slots: it sends a page to a slot
    exactly when the slot is that page's. The hand points at a slot. -/
structure Indexed (s : PoolState τ) : Prop where
  capacity : 1 ≤ s.capacity
  index : ∀ p i, s.index p = some i ↔ (s.slots[i]?).map Slot.pageId = some p
  hand : s.hand < s.slots.length ∨ s.slots = [] ∧ s.hand = 0

/-- A page and its cached value. -/
def entry (slot : Slot τ) : PageId × τ := (slot.pageId, slot.value)

/-- The pages cached, and their values. -/
def entries (s : PoolState τ) : List (PageId × τ) := s.slots.map entry

theorem Indexed.new (capacity : Nat) : (new capacity : PoolState τ).Indexed where
  capacity := le_max_right _ _
  index := fun p i => by simp [PoolState.new]
  hand := .inr ⟨rfl, rfl⟩

variable {s : PoolState τ}

theorem Indexed.clear (h : s.Indexed) : s.clear.Indexed where
  capacity := h.capacity
  index := fun p i => by simp [PoolState.clear]
  hand := .inr ⟨rfl, rfl⟩

theorem Indexed.slot {s : PoolState τ} (h : s.Indexed) {p : PageId} {i : Nat}
    (hi : s.index p = some i) : ∃ slot, s.slots[i]? = some slot ∧ slot.pageId = p :=
  Option.map_eq_some_iff.mp ((h.index p i).mp hi)

variable {i : Nat} {slot : Slot τ}

theorem Indexed.of_slot (h : s.Indexed) (hi : s.slots[i]? = some slot) : s.index slot.pageId = some i :=
  (h.index _ i).mpr (by rw [hi]; rfl)

/-- A page is absent from the index exactly when no slot is its. -/
theorem Indexed.index_none (h : s.Indexed) {p : PageId} :
    s.index p = none ↔ ∀ e ∈ s.entries, e.1 ≠ p := by
  constructor
  · intro hnone e he heq
    obtain ⟨slot, hslot, rfl⟩ := List.mem_map.mp he
    obtain ⟨i, hi⟩ := List.mem_iff_getElem?.mp hslot
    have hsome := h.of_slot hi
    rw [show slot.pageId = p from heq, hnone] at hsome
    cases hsome
  · intro hall
    cases hi : s.index p with
    | none => rfl
    | some i =>
      obtain ⟨slot, hslot, rfl⟩ := h.slot hi
      exact absurd rfl (hall (entry slot) (List.mem_map_of_mem (List.mem_of_getElem? hslot)))

theorem mem_entries (h : s.slots[i]? = some slot) :
    (slot.pageId, slot.value) ∈ s.entries :=
  List.mem_map.mpr ⟨slot, List.mem_of_getElem? h, rfl⟩

/-- Changing a reference bit changes no page's slot. -/
theorem Indexed.touch (h : s.Indexed) (hi : s.slots[i]? = some slot) (bit : Bool) :
    { s with slots := s.slots.set i { slot with referenced := bit } }.Indexed ∧
      { s with slots := s.slots.set i { slot with referenced := bit } }.entries = s.entries := by
  obtain ⟨hlt, hget⟩ := List.getElem?_eq_some_iff.mp hi
  refine ⟨⟨h.capacity, fun p j => ?_, ?_⟩, ?_⟩
  · rw [h.index p j, List.getElem?_set]
    by_cases hij : i = j
    · subst hij
      simp [hlt, hget]
    · rw [if_neg hij]
  · rcases h.hand with hh | ⟨hnil, -⟩
    · exact .inl (by simpa using hh)
    · simp [hnil] at hlt
  · simp only [entries, List.map_set]
    rw [show entry { slot with referenced := bit } = entry slot from rfl]
    refine List.ext_getElem? fun j => ?_
    rw [List.getElem?_set]
    by_cases hij : i = j
    · subst hij
      simp [hlt, hget]
    · rw [if_neg hij]

/-- `evict_slot` finds a victim, and clears reference bits only. -/
theorem evictSlot_spec (h : s.Indexed) (hne : s.slots ≠ []) :
    ∃ i s', s.evictSlot = some (i, s') ∧ i < s'.slots.length ∧ s'.Indexed ∧
      s'.entries = s.entries ∧ s'.capacity = s.capacity ∧ s'.loading = s.loading := by
  induction s using evictSlot.induct with
  | case1 s hnone =>
    rcases h.hand with hh | ⟨hnil, -⟩
    · exact absurd (List.getElem?_eq_none_iff.mp hnone) (by omega)
    · exact absurd hnil hne
  | case2 s slot hslot hand href ih =>
    have hlen : 0 < s.slots.length := List.length_pos_iff.mpr hne
    obtain ⟨htouch, hentries⟩ := h.touch hslot false
    have hadv : { s with hand := hand, slots := s.slots.set s.hand { slot with referenced := false } }.Indexed :=
      ⟨htouch.capacity, htouch.index, .inl (by simpa using Nat.mod_lt _ hlen)⟩
    obtain ⟨i, s', heq, hi, hok, hent, hcap, hload⟩ := ih hadv (by simpa using hne)
    refine ⟨i, s', ?_, hi, hok, hent.trans hentries, hcap, hload⟩
    rw [evictSlot]
    split
    · rename_i hnone
      rw [hslot] at hnone
      cases hnone
    · rename_i slot' hslot'
      obtain rfl : slot = slot' := Option.some.inj (hslot.symm.trans hslot')
      rw [dif_pos href]
      exact heq
  | case3 s slot hslot href =>
    have hlen : 0 < s.slots.length := List.length_pos_iff.mpr hne
    refine ⟨s.hand, { s with hand := (s.hand + 1) % s.slots.length }, ?_, ?_, ⟨h.capacity, h.index, ?_⟩, rfl, rfl, rfl⟩
    · rw [evictSlot]
      split
      · rename_i hnone
        rw [hslot] at hnone
        cases hnone
      · rename_i slot' hslot'
        obtain rfl : slot = slot' := Option.some.inj (hslot.symm.trans hslot')
        rw [dif_neg href]
    · exact (List.getElem?_eq_some_iff.mp hslot).1
    · exact .inl (Nat.mod_lt _ hlen)

variable {page : PageId}

/-- Appending a slot for a page that has none. -/
theorem Indexed.push (h : s.Indexed) (value : τ) (hp : s.index page = none) :
    { s with
      index := Function.update s.index page (some s.slots.length)
      slots := s.slots ++ [(⟨page, value, false⟩ : Slot τ)] }.Indexed := by
  refine ⟨h.capacity, fun p i => ?_, ?_⟩ <;> dsimp only
  · by_cases hpage : p = page
    · subst hpage
      simp only [Function.update_self, Option.some.injEq]
      constructor
      · rintro rfl
        simp
      · intro hi
        rcases Nat.lt_trichotomy i s.slots.length with hlt | heq | hgt
        · rw [List.getElem?_append_left hlt] at hi
          rw [(h.index p i).mpr hi] at hp
          cases hp
        · exact heq.symm
        · rw [List.getElem?_eq_none (by simpa using hgt)] at hi
          cases hi
    · rw [Function.update_of_ne hpage, h.index p i]
      rcases Nat.lt_trichotomy i s.slots.length with hlt | heq | hgt
      · rw [List.getElem?_append_left hlt]
      · subst heq
        simpa using Ne.symm hpage
      · have hpast : i ≥ (s.slots ++ [(⟨page, value, false⟩ : Slot τ)]).length := by simpa using hgt
        rw [List.getElem?_eq_none hgt.le, List.getElem?_eq_none hpast]
  · refine .inl ?_
    rcases h.hand with hh | ⟨-, hh⟩
    · simpa using Nat.lt_succ_of_lt hh
    · simp [hh]

/-- Giving a slot to a page that has none. -/
theorem Indexed.replace (h : s.Indexed)
    (hi : s.slots[i]? = some slot) (value : τ) (hp : s.index page = none) :
    { s with
      index := Function.update (Function.update s.index slot.pageId none) page (some i)
      slots := s.slots.set i ⟨page, value, false⟩ }.Indexed := by
  obtain ⟨hlt, hget⟩ := List.getElem?_eq_some_iff.mp hi
  have hvictim := h.of_slot hi
  refine ⟨h.capacity, fun p j => ?_, ?_⟩ <;> dsimp only
  · by_cases hpage : p = page
    · subst hpage
      simp only [Function.update_self, Option.some.injEq]
      constructor
      · rintro rfl
        simp [hlt]
      · intro hj
        by_contra hij
        rw [List.getElem?_set_ne hij, ← h.index p j, hp] at hj
        cases hj
    · rw [Function.update_of_ne hpage]
      by_cases hij : i = j
      · subst hij
        have hnone : ((s.slots.set i ⟨page, value, false⟩)[i]?).map Slot.pageId = some page := by
          simp [hlt]
        rw [hnone]
        refine iff_of_false (fun hsome => ?_) (fun heq => hpage (Option.some.inj heq).symm)
        by_cases hold : p = slot.pageId
        · rw [hold, Function.update_self] at hsome
          cases hsome
        · rw [Function.update_of_ne hold, h.index p i, hi] at hsome
          exact hold (Option.some.inj hsome).symm
      · rw [List.getElem?_set_ne hij]
        by_cases hold : p = slot.pageId
        · rw [hold, Function.update_self, ← h.index, hvictim]
          exact iff_of_false (fun hj => by cases hj) (fun hj => hij (Option.some.inj hj))
        · rw [Function.update_of_ne hold, h.index p j]
  · rcases h.hand with hh | ⟨hnil, -⟩
    · exact .inl (by simpa using hh)
    · simp [hnil] at hlt

/-- Inserting a page that is absent fills a free slot or the victim's. -/
theorem insert_spec (h : s.Indexed) (hlen : s.slots.length ≤ s.capacity)
    (value : τ) (hp : s.index page = none) :
    ∃ s', s.insert page value = some s' ∧ s'.Indexed ∧ s'.slots.length ≤ s'.capacity ∧
      s'.loading = s.loading ∧ ∀ e ∈ s'.entries, e = (page, value) ∨ e ∈ s.entries := by
  unfold insert
  by_cases hroom : s.slots.length < s.capacity
  · rw [if_pos hroom]
    refine ⟨_, rfl, h.push value hp, by simpa using hroom, rfl, fun e he => ?_⟩
    simp only [entries, List.map_append, List.map_cons, List.map_nil, List.mem_append,
      List.mem_singleton] at he ⊢
    exact he.symm
  · rw [if_neg hroom]
    have hne : s.slots ≠ [] := by
      intro hnil
      have hcap := h.capacity
      simp only [hnil, List.length_nil] at hroom
      omega
    obtain ⟨i, s₁, heq, hi, hok, hent, hcap, hload⟩ := evictSlot_spec h hne
    have hslot := List.getElem?_eq_getElem hi
    simp only [heq, hslot, Option.bind_eq_bind, Option.bind_some]
    have hp₁ : s₁.index page = none := by
      rw [hok.index_none, hent, ← h.index_none]
      exact hp
    have hlen₁ : s₁.slots.length = s.slots.length := by
      simpa [entries] using congrArg List.length hent
    refine ⟨_, rfl, hok.replace hslot value hp₁, ?_, hload, fun e he => ?_⟩
    · simp only [List.length_set]
      omega
    · simp only [entries, List.map_set] at he
      rcases List.mem_or_eq_of_mem_set he with he | rfl
      · exact .inr (hent ▸ he)
      · exact .inl rfl

/-- Swapping the last slot into a hole, and popping, is dropping the slot. -/
theorem swapRemove_getElem? {slots : List (Slot τ)} (hole last : Slot τ)
    (hi : i < slots.length) (hne : i ≠ slots.length - 1) (j : Nat) : (((slots.set i last).set (slots.length - 1) hole).dropLast)[j]? =
      if j = i then some last else if j < slots.length - 1 then slots[j]? else none := by
  rw [List.getElem?_dropLast]
  simp only [List.length_set]
  by_cases hj : j < slots.length - 1
  · rw [if_pos hj, List.getElem?_set_ne (by omega), List.getElem?_set]
    by_cases hij : j = i
    · subst hij
      simp [hi]
    · rw [if_neg (Ne.symm hij), if_neg hij, if_pos hj]
  · rw [if_neg hj, if_neg hj, if_neg (by omega)]

/-- Invalidating a page drops its slot, if it has one, and keeps the others. -/
theorem invalidate_spec (h : s.Indexed) (page : PageId) :
    ∃ s', s.invalidate page = some s' ∧ s'.Indexed ∧ s'.capacity = s.capacity ∧
      s'.loading = s.loading ∧ s'.index page = none ∧ (∀ e ∈ s'.entries, e ∈ s.entries) ∧
      s'.slots.length = s.slots.length - if (s.index page).isSome then 1 else 0 := by
  unfold invalidate
  cases hpi : s.index page with
  | none => exact ⟨s, rfl, h, rfl, rfl, hpi, fun e he => he, rfl⟩
  | some i =>
    obtain ⟨hole, hhole, hpage⟩ := h.slot hpi
    obtain ⟨hlt, -⟩ := List.getElem?_eq_some_iff.mp hhole
    obtain ⟨last, hlast⟩ : ∃ last, s.slots[s.slots.length - 1]? = some last :=
      ⟨_, List.getElem?_eq_getElem (by omega)⟩
    simp only [hhole, hlast, Option.bind_eq_bind, Option.bind_some]
    have hlastIdx := h.of_slot hlast
    have hhand : ∀ slots' : List (Slot τ), slots'.length = s.slots.length - 1 →
        (if slots'.isEmpty then 0 else s.hand % slots'.length) < slots'.length ∨
          slots' = [] ∧ (if slots'.isEmpty then 0 else s.hand % slots'.length) = 0 := by
      intro slots' _
      cases slots' with
      | nil => exact .inr ⟨rfl, rfl⟩
      | cons x xs => exact .inl (Nat.mod_lt _ (Nat.succ_pos _))
    by_cases hi : i = s.slots.length - 1
    · simp only [hi, ne_eq, not_true_eq_false, if_false]
      refine ⟨_, rfl, ⟨h.capacity, fun p j => ?_, hhand _ (List.length_dropLast ..)⟩, rfl, rfl,
        Function.update_self .., fun e he => ?_, by simp⟩
      · dsimp only
        rw [List.getElem?_dropLast]
        by_cases hp : p = page
        · subst hp
          rw [Function.update_self]
          refine iff_of_false (fun hj => by cases hj) (fun hj => ?_)
          split at hj
          · rw [← h.index, hpi] at hj
            have := Option.some.inj hj
            omega
          · cases hj
        · rw [Function.update_of_ne hp, h.index p j]
          by_cases hj : j < s.slots.length - 1
          · rw [if_pos hj]
          · rw [if_neg hj]
            refine iff_of_false (fun hsome => ?_) (fun hsome => by cases hsome)
            obtain ⟨slot, hslot, hsp⟩ := Option.map_eq_some_iff.mp hsome
            have hjlt := (List.getElem?_eq_some_iff.mp hslot).1
            obtain rfl : j = i := by omega
            rw [hhole] at hslot
            obtain rfl := Option.some.inj hslot
            exact hp (hsp.symm.trans hpage)
      · simp only [entries, List.map_dropLast] at he ⊢
        exact List.mem_of_mem_dropLast he
    · simp only [ne_eq, hi, not_false_eq_true, if_true]
      have hget := swapRemove_getElem? hole last hlt hi
      have hlastne : last.pageId ≠ page := by
        intro heq
        rw [heq, hpi] at hlastIdx
        exact hi (Option.some.inj hlastIdx)
      refine ⟨_, rfl, ⟨h.capacity, fun p j => ?_, hhand _ (by simp)⟩, rfl, rfl, ?_, fun e he => ?_,
        by simp⟩
      · dsimp only
        rw [hget j]
        by_cases hpl : p = last.pageId
        · subst hpl
          rw [Function.update_self]
          by_cases hji : j = i
          · simp [hji]
          · rw [if_neg hji]
            refine iff_of_false (fun hsome => hji (Option.some.inj hsome).symm) (fun hsome => ?_)
            split at hsome
            · rw [← h.index, hlastIdx] at hsome
              have := Option.some.inj hsome
              omega
            · cases hsome
        · rw [Function.update_of_ne hpl]
          by_cases hji : j = i
          · subst hji
            rw [if_pos rfl]
            refine iff_of_false (fun hsome => ?_) (fun hsome => hpl (Option.some.inj hsome).symm)
            by_cases hp : p = page
            · rw [hp, Function.update_self] at hsome
              cases hsome
            · rw [Function.update_of_ne hp, h.index, hhole] at hsome
              exact hp ((Option.some.inj hsome).symm.trans hpage)
          · rw [if_neg hji]
            by_cases hp : p = page
            · subst hp
              rw [Function.update_self]
              refine iff_of_false (fun hsome => by cases hsome) (fun hsome => ?_)
              split at hsome
              · rw [← h.index, hpi] at hsome
                exact hji (Option.some.inj hsome).symm
              · cases hsome
            · rw [Function.update_of_ne hp, h.index]
              by_cases hj : j < s.slots.length - 1
              · rw [if_pos hj]
              · rw [if_neg hj]
                refine iff_of_false (fun hsome => ?_) (fun hsome => by cases hsome)
                obtain ⟨slot, hslot, hsp⟩ := Option.map_eq_some_iff.mp hsome
                have hjlt := (List.getElem?_eq_some_iff.mp hslot).1
                obtain rfl : j = s.slots.length - 1 := by omega
                rw [hlast] at hslot
                obtain rfl := Option.some.inj hslot
                exact hpl hsp.symm
      · dsimp only
        rw [Function.update_of_ne (Ne.symm hlastne), Function.update_self]
      · obtain ⟨slot, hslot, rfl⟩ := List.mem_map.mp he
        obtain ⟨j, hj⟩ := List.mem_iff_getElem?.mp hslot
        rw [hget j] at hj
        split at hj
        · obtain rfl := Option.some.inj hj
          exact mem_entries hlast
        · split at hj
          · exact mem_entries hj
          · cases hj

/-- The loop of `set_capacity` ends with the slots within the capacity. -/
theorem shrink_spec {fuel : Nat} : ∀ {s : PoolState τ}, s.Indexed →
    s.slots.length ≤ fuel + s.capacity →
    ∃ s', shrink fuel s = some s' ∧ s'.Indexed ∧ s'.slots.length ≤ s'.capacity ∧
      s'.capacity = s.capacity ∧ s'.loading = s.loading ∧ ∀ e ∈ s'.entries, e ∈ s.entries := by
  induction fuel with
  | zero =>
    intro s h hlen
    have hle : s.slots.length ≤ s.capacity := by omega
    refine ⟨s, ?_, h, hle, rfl, rfl, fun e he => he⟩
    unfold shrink
    rw [if_pos hle]
  | succ fuel ih =>
    intro s h hlen
    unfold shrink
    by_cases hle : s.slots.length ≤ s.capacity
    · rw [if_pos hle]
      exact ⟨s, rfl, h, hle, rfl, rfl, fun e he => he⟩
    · rw [if_neg hle]
      have hne : s.slots ≠ [] := by
        intro hnil
        simp [hnil] at hle
      obtain ⟨i, s₁, heq, hi, hok₁, hent₁, hcap₁, hload₁⟩ := evictSlot_spec h hne
      have hslot := List.getElem?_eq_getElem hi
      obtain ⟨s₂, heq₂, hok₂, hcap₂, hload₂, -, hent₂, hlen₂⟩ :=
        invalidate_spec hok₁ s₁.slots[i].pageId
      have hlen₁ : s₁.slots.length = s.slots.length := by
        simpa [entries] using congrArg List.length hent₁
      rw [hok₁.of_slot hslot] at hlen₂
      simp only [Option.isSome_some, if_true] at hlen₂
      obtain ⟨s', heq', hok', hle', hcap', hload', hent'⟩ := ih hok₂ (by omega)
      simp only [heq, hslot, heq₂, Option.bind_eq_bind, Option.bind_some]
      exact ⟨s', heq', hok', hle', by omega, by rw [hload', hload₂, hload₁],
        fun e he => hent₁ ▸ hent₂ e (hent' e he)⟩

theorem setCapacity_spec (h : s.Indexed) (capacity : Nat) :
    ∃ s', s.setCapacity capacity = some s' ∧ s'.Indexed ∧ s'.slots.length ≤ s'.capacity ∧
      s'.capacity = max capacity 1 ∧ s'.loading = s.loading ∧ ∀ e ∈ s'.entries, e ∈ s.entries :=
  shrink_spec ⟨le_max_right _ _, h.index, h.hand⟩ (by simp)

end PoolState

end Jed.Pool
