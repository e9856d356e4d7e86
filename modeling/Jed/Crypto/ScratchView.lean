import Jed.Crypto.Scratch

/-!
# What a sealed scratch file holds

The plaintext blocks of a sealed scratch file: an invariant of its stored blocks, cached block and
counters, which no replacement of the stored bytes breaks, and the byte array that the file shows.
-/

namespace Jed.Crypto

open Jed.GrowFile SealedSpillFile

/-- The invariant of a sealed file whose live blocks hold `plain`: the counters are past every sealing, so a
    live block's stored bytes open to it or not at all; in an `honest` file they open. -/
structure Keeps (env : Scratch) (honest : Prop) (s : SealedSpillFile) (plain : ℕ → Bytes) : Prop where
  live_length : s.live.length = s.counters.length
  cached_length : ∀ k block, s.cached = some (k, block) → block.length = scratchBlock
  plain_length : ∀ k, (plain k).length = scratchBlock
  logged : ∀ k c block, (ad env k c, block) ∈ s.log → c ≤ s.counters.getD k 0
  latest : ∀ k, s.isLive k = true → ∀ block,
    (ad env k (s.counters.getD k 0), block) ∈ s.log → block = plain k
  full : ∀ k, s.isLive k = true → k * scratchStored + scratchStored ≤ s.inner.length
  opens : ∀ k, s.isLive k = true → ∀ block,
    openBlock env (ad env k (s.counters.getD k 0)) (s.region k) = some block → block = plain k
  opened : honest → ∀ k, s.isLive k = true →
    openBlock env (ad env k (s.counters.getD k 0)) (s.region k) = some (plain k)

/-- The plaintext of a block. -/
def view (s : SealedSpillFile) (plain : ℕ → Bytes) (k : ℕ) : Bytes :=
  (s.cachedAt k).getD (if s.isLive k then plain k else zeros)

/-- The byte at a place. -/
def viewAt (s : SealedSpillFile) (plain : ℕ → Bytes) (i : ℕ) : UInt8 :=
  at_ 0 (view s plain (i / scratchBlock)) (i % scratchBlock)

/-- The file shows the byte array: of its size, with zeros past it. -/
def Shows (s : SealedSpillFile) (plain : ℕ → Bytes) (f : Bytes) : Prop :=
  f.length = s.size ∧ ∀ i, viewAt s plain i = at_ 0 f i

theorem scratchBlock_pos : 0 < scratchBlock := by decide

theorem length_zeros : zeros.length = scratchBlock := List.length_replicate

theorem length_sealBlock (env : Scratch) (i : ℕ) (ad : Ad) {block : Bytes}
    (h : block.length = scratchBlock) :
    (sealBlock env (env.nonce i) ad block).length = scratchStored := by
  rw [sealBlock, List.length_append, List.length_append, env.cipher.length_text, env.length_nonce,
    env.cipher.length_tag, h, scratchStored]

/-- A block as it was stored opens. -/
theorem openBlock_sealBlock (env : Scratch) (i : ℕ) (ad : Ad) {block : Bytes}
    (h : block.length = scratchBlock) :
    openBlock env ad (sealBlock env (env.nonce i) ad block) = some block := by
  have htext : (env.cipher.seal_ (env.nonce i) ad block).1.length = scratchBlock := by
    rw [env.cipher.length_text, h]
  have hnonce := env.length_nonce i
  have hdrop : (sealBlock env (env.nonce i) ad block).drop scratchBlock =
      env.nonce i ++ (env.cipher.seal_ (env.nonce i) ad block).2 := by
    rw [sealBlock, List.drop_left' htext]
  rw [openBlock, ← List.drop_drop, hdrop, List.take_left' hnonce, List.drop_left' hnonce, sealBlock,
    List.take_left' htext]
  exact env.cipher.open_seal _ _ _

variable {env : Scratch} {honest : Prop} {s : SealedSpillFile} {plain : ℕ → Bytes} {k : ℕ}
variable {block : Bytes}

namespace Keeps

theorem created : Keeps env honest created fun _ => zeros where
  live_length := rfl
  cached_length := nofun
  plain_length _ := length_zeros
  logged := nofun
  latest := nofun
  full := nofun
  opens := nofun
  opened _ := nofun

theorem isLive_lt (h : s.isLive k = true) : k < s.live.length := by
  by_contra hge
  rw [isLive, List.getD_eq_getElem?_getD, List.getElem?_eq_none (Nat.le_of_not_lt hge)] at h
  cases h

theorem view_length (h : Keeps env honest s plain) (k : ℕ) :
    (view s plain k).length = scratchBlock := by
  rw [view]
  cases hc : s.cachedAt k with
  | some block =>
    rw [cachedAt] at hc
    split at hc
    next c block' hcached =>
      split at hc
      · cases hc
        exact h.cached_length c block hcached
      · cases hc
    next => cases hc
  | none =>
    rw [Option.getD_none]
    split
    · exact h.plain_length k
    · exact length_zeros

/-- A load gives the block's plaintext, or fails. -/
theorem load_ok (h : Keeps env honest s plain) (hload : s.load env k = .ok block) :
    block = view s plain k := by
  rw [load] at hload
  rw [view]
  cases hc : s.cachedAt k with
  | some cached =>
    rw [hc] at hload
    cases hload
    rfl
  | none =>
    rw [hc] at hload
    dsimp only at hload
    cases hlive : s.isLive k with
    | false =>
      rw [hlive] at hload
      cases hload
      rfl
    | true =>
      rw [hlive, if_pos rfl, openStored] at hload
      have hk : k < s.counters.length := h.live_length ▸ isLive_lt hlive
      have hcounter : s.counters[k]? = some (s.counters.getD k 0) := by
        rw [List.getD_eq_getElem?_getD, List.getElem?_eq_getElem hk]
        rfl
      rw [hcounter] at hload
      dsimp only at hload
      split at hload
      · cases hload
      · cases hopen : openBlock env (ad env k (s.counters.getD k 0)) (s.region k) with
        | none =>
          rw [hopen] at hload
          cases hload
        | some b =>
          rw [hopen] at hload
          cases hload
          rw [Option.getD_none, if_pos rfl]
          exact h.opens k hlive block hopen

/-- In an honest file every load succeeds. -/
theorem load_honest (h : Keeps env honest s plain) (hh : honest) (k : ℕ) :
    s.load env k = .ok (view s plain k) := by
  rw [load, view]
  cases hc : s.cachedAt k with
  | some cached => rfl
  | none =>
    cases hlive : s.isLive k with
    | false => rfl
    | true =>
      have hk : k < s.counters.length := h.live_length ▸ isLive_lt hlive
      have hcounter : s.counters[k]? = some (s.counters.getD k 0) := by
        rw [List.getD_eq_getElem?_getD, List.getElem?_eq_getElem hk]
        rfl
      have hfull := h.full k hlive
      have hlen : ¬ (s.region k).length < scratchStored := by
        rw [region, length_read]
        omega
      dsimp only
      rw [if_pos rfl, openStored, hcounter]
      dsimp only
      rw [if_neg hlen, h.opened hh k hlive]
      rfl

end Keeps

theorem counter_store (k : ℕ) (block : Bytes) (j : ℕ) :
    (s.store env k block).counters.getD j 0 =
      if j = k then s.counters.getD k 0 + 1 else s.counters.getD j 0 := by
  change at_ 0 ((pad 0 s.counters (k + 1)).set k (at_ 0 (pad 0 s.counters (k + 1)) k + 1)) j = _
  rw [at_set (by rw [length_pad]; omega), at_pad, at_pad]
  rfl

theorem isLive_store (k : ℕ) (block : Bytes) (j : ℕ) :
    (s.store env k block).isLive j = if j = k then true else s.isLive j := by
  change at_ false ((pad false s.live (k + 1)).set k true) j = _
  rw [at_set (by rw [length_pad]; omega), at_pad]
  rfl

theorem log_store (k : ℕ) (block : Bytes) :
    (s.store env k block).log = (ad env k (s.counters.getD k 0 + 1), block) :: s.log := by
  have hcounter : (pad 0 s.counters (k + 1)).getD k 0 = s.counters.getD k 0 := at_pad
  rw [SealedSpillFile.store]
  dsimp only
  rw [hcounter]

theorem regions_apart {j k : ℕ} (h : j ≠ k) :
    j * scratchStored + scratchStored ≤ k * scratchStored ∨
      k * scratchStored + scratchStored ≤ j * scratchStored := by
  rw [← Nat.succ_mul, ← Nat.succ_mul]
  rcases Nat.lt_or_gt_of_ne h with h | h
  · exact .inl (Nat.mul_le_mul_right _ h)
  · exact .inr (Nat.mul_le_mul_right _ h)

namespace Keeps

/-- The block stored opens to itself under a counter that no other sealing of it had. -/
theorem store (h : Keeps env honest s plain) (hblock : block.length = scratchBlock) :
    Keeps env honest (s.store env k block) (Function.update plain k block) := by
  have hstored : ∀ ad, (sealBlock env (env.nonce s.drawn) ad block).length = scratchStored :=
    fun ad => length_sealBlock env s.drawn ad hblock
  have hsame : (s.store env k block).region k = sealBlock env (env.nonce s.drawn)
      (ad env k (s.counters.getD k 0 + 1)) block := by
    have hcounter : (pad 0 s.counters (k + 1)).getD k 0 = s.counters.getD k 0 := at_pad
    rw [region, SealedSpillFile.store]
    dsimp only
    rw [hcounter]
    exact read_write_same (hstored _)
  have hother : ∀ j, j ≠ k → s.isLive j = true → (s.store env k block).region j = s.region j := by
    intro j hj hlive
    exact read_write_apart (h.full j hlive) (by rw [hstored]; exact regions_apart hj)
  have hopen : openBlock env (ad env k (s.counters.getD k 0 + 1)) ((s.store env k block).region k) =
      some block := by
    rw [hsame]
    exact openBlock_sealBlock env s.drawn _ hblock
  have hcounter : ∀ j, (s.store env k block).counters.getD j 0 =
      if j = k then s.counters.getD k 0 + 1 else s.counters.getD j 0 := counter_store k block
  have hlive : ∀ j, (s.store env k block).isLive j = if j = k then true else s.isLive j :=
    isLive_store k block
  have hbelow : ∀ c b, (ad env k c, b) ∈ s.log → c ≠ s.counters.getD k 0 + 1 := fun c b hb => by
    have := h.logged k c b hb
    omega
  constructor
  case live_length =>
    change ((pad false s.live (k + 1)).set k true).length =
      ((pad 0 s.counters (k + 1)).set k _).length
    rw [List.length_set, List.length_set, length_pad, length_pad, h.live_length]
  case cached_length => exact nofun
  case plain_length =>
    intro j
    by_cases hj : j = k
    · rw [hj, Function.update_self, hblock]
    · rw [Function.update_of_ne hj]
      exact h.plain_length j
  case logged =>
    intro j c b hb
    rw [log_store] at hb
    rw [hcounter]
    rcases List.mem_cons.1 hb with hb | hb
    · cases hb
      rw [if_pos rfl]
    · have := h.logged j c b hb
      split
      next hj =>
        subst hj
        omega
      next => exact this
  case latest =>
    intro j hj b hb
    rw [hcounter, log_store] at hb
    rw [hlive] at hj
    by_cases hjk : j = k
    · subst hjk
      rw [if_pos rfl] at hb
      rw [Function.update_self]
      rcases List.mem_cons.1 hb with hb | hb
      · cases hb
        rfl
      · exact absurd rfl (hbelow _ b hb)
    · rw [if_neg hjk] at hb hj
      rw [Function.update_of_ne hjk]
      rcases List.mem_cons.1 hb with hb | hb
      · exact absurd (congrArg (fun p => p.1.ordinal) hb) hjk
      · exact h.latest j hj b hb
  case full =>
    intro j hj
    change _ ≤ (write 0 s.inner (k * scratchStored) _).length
    rw [length_write, hstored]
    rw [hlive] at hj
    by_cases hjk : j = k
    · subst hjk
      omega
    · rw [if_neg hjk] at hj
      have := h.full j hj
      omega
  case opens =>
    intro j hj b hb
    rw [hcounter] at hb
    rw [hlive] at hj
    by_cases hjk : j = k
    · subst hjk
      rw [if_pos rfl, hopen] at hb
      cases hb
      rw [Function.update_self]
    · rw [if_neg hjk] at hb hj
      rw [hother j hjk hj] at hb
      rw [Function.update_of_ne hjk]
      exact h.opens j hj b hb
  case opened =>
    intro hh j hj
    rw [hcounter]
    rw [hlive] at hj
    by_cases hjk : j = k
    · subst hjk
      rw [if_pos rfl, hopen, Function.update_self]
    · rw [if_neg hjk] at hj ⊢
      rw [hother j hjk hj, Function.update_of_ne hjk]
      exact h.opened hh j hj

/-- Caching a block. -/
theorem cache (h : Keeps env honest s plain) (k : ℕ) (hblock : block.length = scratchBlock) :
    Keeps env honest { s with cached := some (k, block) } plain where
  live_length := h.live_length
  cached_length := by
    rintro _ _ ⟨⟩
    exact hblock
  plain_length := h.plain_length
  logged := h.logged
  latest := h.latest
  full := h.full
  opens := h.opens
  opened := h.opened

theorem resized (h : Keeps env honest s plain) (n : ℕ) : Keeps env honest { s with size := n } plain where
  live_length := h.live_length
  cached_length := h.cached_length
  plain_length := h.plain_length
  logged := h.logged
  latest := h.latest
  full := h.full
  opens := h.opens
  opened := h.opened

/-- A flush changes no block. -/
theorem flush (h : Keeps env honest s plain) : ∃ plain', Keeps env honest (s.flushCached env) plain' ∧
    (s.flushCached env).cached = none ∧ (s.flushCached env).size = s.size ∧
      ∀ j, view (s.flushCached env) plain' j = view s plain j := by
  rw [flushCached]
  cases hc : s.cached with
  | none => exact ⟨plain, h, hc, rfl, fun _ => rfl⟩
  | some c =>
    obtain ⟨k, block⟩ := c
    refine ⟨_, h.store (h.cached_length k block hc), rfl, rfl, fun j => ?_⟩
    have hnone : (s.store env k block).cachedAt j = none := rfl
    rw [view, view, hnone, isLive_store, cachedAt, hc]
    dsimp only [Option.getD_none]
    by_cases hj : j = k
    · subst hj
      rw [if_pos rfl, if_pos rfl, if_pos rfl, Function.update_self]
      rfl
    · rw [if_neg hj, if_neg (Ne.symm hj), Function.update_of_ne hj]
      rfl

end Keeps

theorem cachedAt_eq (h : s.cachedAt k = some block) : s.cached = some (k, block) := by
  rw [cachedAt] at h
  split at h
  next c b hc =>
    split at h
    next hck =>
      cases h
      rw [hc, hck]
    next => cases h
  next => cases h

theorem cachedAt_of_cached {c : ℕ} (h : s.cached = some (c, block)) (k : ℕ) :
    s.cachedAt k = if c = k then some block else none := by
  rw [cachedAt, h]

theorem view_cache (h : s.cached = none) (k j : ℕ) :
    view { s with cached := some (k, block) } plain j = if k = j then block else view s plain j := by
  have hnone : s.cachedAt j = none := by rw [cachedAt, h]
  rw [view, view, hnone, cachedAt_of_cached rfl]
  by_cases hkj : k = j
  · rw [if_pos hkj, if_pos hkj]
    rfl
  · rw [if_neg hkj, if_neg hkj]
    rfl

/-- What `prepare` leaves: the block cached, and the plaintext of every block as it was, the cached one
    apart where it is about to be written whole. -/
def Prepared (env : Scratch) (honest : Prop) (s : SealedSpillFile) (plain : ℕ → Bytes)
    (ordinal take : ℕ) (s' : SealedSpillFile) : Prop :=
  ∃ plain' block, Keeps env honest s' plain' ∧ s'.cached = some (ordinal, block) ∧
    s'.size = s.size ∧ (∀ j, j ≠ ordinal → view s' plain' j = view s plain j) ∧
      (take ≠ scratchBlock → block = view s plain ordinal)

variable {take : ℕ} {s' : SealedSpillFile}

theorem prepare_ok (h : Keeps env honest s plain) {ordinal : ℕ}
    (hprep : s.prepare env ordinal take = .ok s') : Prepared env honest s plain ordinal take s' := by
  rw [prepare] at hprep
  cases hc : s.cachedAt ordinal with
  | some block =>
    rw [hc] at hprep
    cases hprep
    refine ⟨plain, block, h, cachedAt_eq hc, rfl, fun _ _ => rfl, fun _ => ?_⟩
    rw [view, hc]
    rfl
  | none =>
    rw [hc] at hprep
    dsimp only at hprep
    obtain ⟨plain', hkeeps, hnone, hsize, hview⟩ := h.flush
    cases hload : (if take = scratchBlock then .ok zeros else s.load env ordinal :
        Except ScratchError Bytes) with
    | error e =>
      rw [hload] at hprep
      cases hprep
    | ok block =>
      rw [hload] at hprep
      cases hprep
      have hlen : block.length = scratchBlock := by
        split at hload
        · cases hload
          exact length_zeros
        · rw [h.load_ok hload]
          exact h.view_length ordinal
      refine ⟨plain', block, hkeeps.cache ordinal hlen, rfl, hsize, fun j hj => ?_, fun htake => ?_⟩
      · rw [view_cache hnone, if_neg (Ne.symm hj), hview]
      · rw [if_neg htake] at hload
        exact h.load_ok hload

theorem prepare_honest (h : Keeps env honest s plain) (hh : honest) (ordinal take : ℕ) :
    ∃ s', s.prepare env ordinal take = .ok s' := by
  rw [prepare]
  cases s.cachedAt ordinal with
  | some block => exact ⟨s, rfl⟩
  | none =>
    rw [h.load_honest hh]
    dsimp only
    split
    next e he =>
      split at he <;> cases he
    next block _ => exact ⟨_, rfl⟩

/-- The bytes of a file after a write of `bytes` at `pos`. -/
def Wrote (env : Scratch) (honest : Prop) (s : SealedSpillFile) (plain : ℕ → Bytes) (pos : ℕ)
    (bytes : Bytes) (s' : SealedSpillFile) : Prop :=
  ∃ plain', Keeps env honest s' plain' ∧ s'.size = s.size ∧
    ∀ i, viewAt s' plain' i =
      if pos ≤ i ∧ i < pos + bytes.length then at_ 0 bytes (i - pos) else viewAt s plain i

variable {pos : ℕ} {chunk : Bytes}

/-- A chunk written into the block it lies in. -/
theorem patchCached_wrote (hchunk : pos % scratchBlock + chunk.length ≤ scratchBlock)
    (h : Prepared env honest s plain (pos / scratchBlock) chunk.length s') :
    Wrote env honest s plain pos chunk (s'.patchCached (pos % scratchBlock) chunk) := by
  obtain ⟨plain', block, hkeeps, hcached, hsize, hother, hblock⟩ := h
  have hlen : block.length = scratchBlock := hkeeps.cached_length _ _ hcached
  have hsplice : (splice block (pos % scratchBlock) chunk).length = scratchBlock := by
    rw [length_splice (by omega), hlen]
  have hpatch : s'.patchCached (pos % scratchBlock) chunk =
      { s' with cached := some (pos / scratchBlock, splice block (pos % scratchBlock) chunk) } := by
    rw [patchCached, hcached]
    rfl
  refine ⟨plain', ?_, ?_, fun i => ?_⟩
  · rw [hpatch]
    exact hkeeps.cache _ hsplice
  · rw [hpatch]
    exact hsize
  · have hcachedAt : ∀ j, (s'.patchCached (pos % scratchBlock) chunk).cachedAt j =
        if pos / scratchBlock = j then some (splice block (pos % scratchBlock) chunk) else none := by
      intro j
      rw [hpatch, cachedAt_of_cached rfl]
    by_cases hi : i / scratchBlock = pos / scratchBlock
    · have hview : view (s'.patchCached (pos % scratchBlock) chunk) plain' (i / scratchBlock) =
          splice block (pos % scratchBlock) chunk := by
        rw [view, hcachedAt, if_pos hi.symm]
        rfl
      rw [viewAt, hview, at_splice (by omega), viewAt]
      have hdiv := Nat.div_add_mod i scratchBlock
      have hdiv' := Nat.div_add_mod pos scratchBlock
      rw [hi] at hdiv
      by_cases hin : pos ≤ i ∧ i < pos + chunk.length
      · rw [if_pos (by omega), if_pos hin]
        congr 1
        omega
      · rw [if_neg (by omega), if_neg hin, hi]
        -- a whole block has no byte outside the chunk
        by_cases hwhole : chunk.length = scratchBlock
        · have := Nat.mod_lt i scratchBlock_pos
          omega
        · rw [hblock hwhole]
    · have hview : view (s'.patchCached (pos % scratchBlock) chunk) plain' (i / scratchBlock) =
          view s plain (i / scratchBlock) := by
        rw [← hother _ hi, view, view, hcachedAt, if_neg (Ne.symm hi), cachedAt_of_cached hcached,
          if_neg (Ne.symm hi), hpatch]
        rfl
      have hout : ¬ (pos ≤ i ∧ i < pos + chunk.length) := by
        intro hin
        refine hi ?_
        have hdiv' := Nat.div_add_mod pos scratchBlock
        refine Nat.div_eq_of_lt_le ?_ ?_
        · rw [Nat.mul_comm]
          omega
        · rw [Nat.succ_mul, Nat.mul_comm]
          omega
      rw [viewAt, hview, if_neg hout, viewAt]

theorem Wrote.nil (h : Keeps env honest s plain) (pos : ℕ) : Wrote env honest s plain pos [] s :=
  ⟨plain, h, rfl, fun i => by rw [if_neg (by rw [List.length_nil]; omega)]⟩

variable {bytes : Bytes}

/-- Writes one after the other. -/
theorem Wrote.append {rest : Bytes} {s₁ s₂ : SealedSpillFile} {plain₁ : ℕ → Bytes} (hsize : s₁.size = s.size)
    (hview : ∀ i, viewAt s₁ plain₁ i =
      if pos ≤ i ∧ i < pos + bytes.length then at_ 0 bytes (i - pos) else viewAt s plain i)
    (h : Wrote env honest s₁ plain₁ (pos + bytes.length) rest s₂) :
    Wrote env honest s plain pos (bytes ++ rest) s₂ := by
  obtain ⟨plain₂, hkeeps, hsize', hview'⟩ := h
  refine ⟨plain₂, hkeeps, hsize'.trans hsize, fun i => ?_⟩
  rw [hview', hview, List.length_append]
  by_cases hin : pos ≤ i ∧ i < pos + (bytes.length + rest.length)
  · rw [if_pos hin]
    by_cases hfirst : i < pos + bytes.length
    · rw [if_neg (by omega), if_pos (by omega), at_append_left (by omega)]
    · rw [if_pos (by omega), at_append_right (by omega), Nat.sub_add_eq]
  · rw [if_neg hin, if_neg (by omega), if_neg (by omega)]

/-- Every block written or cached starts before `n`. -/
def Within (s : SealedSpillFile) (n : ℕ) : Prop :=
  (∀ k, s.isLive k = true → k * scratchBlock < n) ∧
    ∀ k block, s.cached = some (k, block) → k * scratchBlock < n

variable {n : ℕ}

theorem Within.mono {m : ℕ} (h : Within s n) (hnm : n ≤ m) : Within s m :=
  ⟨fun k hk => Nat.lt_of_lt_of_le (h.1 k hk) hnm, fun k b hk => Nat.lt_of_lt_of_le (h.2 k b hk) hnm⟩

theorem Within.flush (h : Within s n) : Within (s.flushCached env) n := by
  rw [flushCached]
  cases hc : s.cached with
  | none => exact h
  | some c =>
    obtain ⟨k, block⟩ := c
    refine ⟨fun j hj => ?_, nofun⟩
    rw [isLive_store] at hj
    by_cases hjk : j = k
    · rw [hjk]
      exact h.2 k block hc
    · rw [if_neg hjk] at hj
      exact h.1 j hj

theorem Within.cache (h : Within s n) (hk : k * scratchBlock < n) :
    Within { s with cached := some (k, block) } n := by
  refine ⟨h.1, ?_⟩
  rintro _ _ ⟨⟩
  exact hk

variable {e : ScratchError}

/-- A load that fails is of a live block. -/
theorem isLive_of_load_error (h : s.load env k = .error e) :
    s.isLive k = true := by
  rw [load] at h
  cases hc : s.cachedAt k with
  | some cached =>
    rw [hc] at h
    cases h
  | none =>
    rw [hc] at h
    cases hlive : s.isLive k with
    | true => rfl
    | false =>
      rw [hlive] at h
      cases h

theorem isLive_of_prepare_error (h : s.prepare env k take = .error e) : s.isLive k = true := by
  rw [prepare] at h
  cases hc : s.cachedAt k with
  | some cached =>
    rw [hc] at h
    cases h
  | none =>
    rw [hc] at h
    dsimp only at h
    by_cases htake : take = scratchBlock
    · rw [if_pos htake] at h
      cases h
    · rw [if_neg htake] at h
      cases hload : s.load env k with
      | error e' => exact isLive_of_load_error hload
      | ok block =>
        rw [hload] at h
        cases h

theorem within_prepare (h : Within s n)
    (hk : k * scratchBlock < n) (hprep : s.prepare env k take = .ok s') : Within s' n := by
  rw [prepare] at hprep
  cases hc : s.cachedAt k with
  | some cached =>
    rw [hc] at hprep
    cases hprep
    exact h
  | none =>
    rw [hc] at hprep
    dsimp only at hprep
    cases hload : (if take = scratchBlock then .ok zeros else s.load env k :
        Except ScratchError Bytes) with
    | error e =>
      rw [hload] at hprep
      cases hprep
    | ok block =>
      rw [hload] at hprep
      cases hprep
      exact h.flush.cache hk

theorem within_patchCached {within : ℕ} (h : Within s n) :
    Within (s.patchCached within chunk) n := by
  refine ⟨h.1, fun k block hk => ?_⟩
  rw [patchCached] at hk
  cases hc : s.cached with
  | none =>
    rw [hc] at hk
    cases hk
  | some c =>
    rw [hc] at hk
    cases hk
    exact h.2 c.1 c.2 hc

theorem writeLoop_nil (fuel pos : ℕ) (s : SealedSpillFile) :
    writeLoop env fuel pos [] s = (.ok (), s) := by
  cases fuel <;> rfl

theorem writeLoop_error {fuel : ℕ} (h : bytes ≠ []) (hprep : s.prepare env (pos / scratchBlock)
      (min (scratchBlock - pos % scratchBlock) bytes.length) = .error e) :
    writeLoop env (fuel + 1) pos bytes s = (.error e, s) := by
  simp only [writeLoop, if_neg h, hprep]

theorem writeLoop_ok {fuel : ℕ} (h : bytes ≠ []) (hprep : s.prepare env (pos / scratchBlock)
      (min (scratchBlock - pos % scratchBlock) bytes.length) = .ok s') :
    writeLoop env (fuel + 1) pos bytes s =
      writeLoop env fuel (pos + min (scratchBlock - pos % scratchBlock) bytes.length)
        (bytes.drop (min (scratchBlock - pos % scratchBlock) bytes.length))
        (s'.patchCached (pos % scratchBlock)
          (bytes.take (min (scratchBlock - pos % scratchBlock) bytes.length))) := by
  simp only [writeLoop, if_neg h, hprep]

/-- What the loop of a write leaves: the first `k` bytes written and no others, all of them where it ends.
    Where it fails in a later block than its first, or at the start of one, that block was live, so what
    was written lies within the file. -/
structure LoopWrote (env : Scratch) (honest : Prop) (s : SealedSpillFile) (plain : ℕ → Bytes) (pos : ℕ)
    (bytes : Bytes) (r : Except ScratchError Unit × SealedSpillFile) (k : ℕ) : Prop where
  le : k ≤ bytes.length
  wrote : Wrote env honest s plain pos (bytes.take k) r.2
  within : Within r.2 (max s.size (pos + k))
  kept : k = 0 → r.2 = s
  all : ∀ u, r.1 = .ok u → k = bytes.length
  inside : ∀ e, r.1 = .error e → pos % scratchBlock = 0 ∨ k ≠ 0 → pos + k < s.size
  ends : honest → r.1 = .ok ()

theorem writeLoop_spec (fuel pos : ℕ) (bytes : Bytes) (hfuel : bytes.length ≤ fuel)
    (h : Keeps env honest s plain) (hw : Within s (max s.size pos)) :
    ∃ k, LoopWrote env honest s plain pos bytes (writeLoop env fuel pos bytes s) k := by
  induction fuel generalizing pos bytes s plain with
  | zero =>
    rw [List.length_eq_zero_iff.1 (Nat.le_zero.1 hfuel)]
    exact ⟨0, le_refl _, .nil h pos, hw, fun _ => rfl, fun _ _ => rfl, nofun, fun _ => rfl⟩
  | succ fuel ih =>
    by_cases hbytes : bytes = []
    · subst hbytes
      exact ⟨0, le_refl _, .nil h pos, hw, fun _ => rfl, fun _ _ => rfl, nofun, fun _ => rfl⟩
    · have hpos : 0 < bytes.length := List.length_pos_iff.2 hbytes
      have hwithin := Nat.mod_lt pos scratchBlock_pos
      have hdiv : pos / scratchBlock * scratchBlock + pos % scratchBlock = pos := by
        rw [Nat.mul_comm]
        exact Nat.div_add_mod pos scratchBlock
      cases hs₁ : s.prepare env (pos / scratchBlock)
          (min (scratchBlock - pos % scratchBlock) bytes.length) with
      | error e =>
        rw [writeLoop_error hbytes hs₁]
        have hlive := hw.1 _ (isLive_of_prepare_error hs₁)
        refine ⟨0, Nat.zero_le _, .nil h pos, hw, fun _ => rfl, nofun, fun _ _ hal => ?_, fun hh => ?_⟩
        · omega
        · obtain ⟨s', hs'⟩ := prepare_honest h hh (pos / scratchBlock)
            (min (scratchBlock - pos % scratchBlock) bytes.length)
          rw [hs'] at hs₁
          cases hs₁
      | ok s₁ =>
        rw [writeLoop_ok hbytes hs₁]
        generalize htake : min (scratchBlock - pos % scratchBlock) bytes.length = take at hs₁
        have hle : take ≤ bytes.length := by omega
        have hlength : (bytes.take take).length = take := by
          rw [List.length_take]
          omega
        have hprep : Prepared env honest s plain (pos / scratchBlock) (bytes.take take).length s₁ := by
          rw [hlength]
          exact prepare_ok h hs₁
        obtain ⟨plain₁, hkeeps, hsize, hview⟩ := patchCached_wrote (by omega) hprep
        have hw₁ : Within (s₁.patchCached (pos % scratchBlock) (bytes.take take))
            (max s.size (pos + take)) :=
          within_patchCached (within_prepare (hw.mono (by omega)) (by omega) hs₁)
        rw [← hsize] at hw₁
        obtain ⟨k, hk⟩ := ih (pos + take) (bytes.drop take) (by rw [List.length_drop]; omega)
          hkeeps hw₁
        have hlast := hk.le
        have hin := hk.inside
        rw [hsize] at hin
        rw [List.length_drop] at hlast
        refine ⟨take + k, by omega, ?_, ?_, by omega, fun u hu => ?_, fun e he _ => ?_, hk.ends⟩
        · rw [List.take_add]
          refine .append hsize hview ?_
          rw [hlength]
          exact hk.wrote
        · rw [← Nat.add_assoc, ← hsize]
          exact hk.within
        · have := hk.all u hu
          rw [List.length_drop] at this
          omega
        · rw [← Nat.add_assoc]
          refine hin e he ?_
          by_cases hk0 : k = 0
          · -- an error here has bytes left, so the chunk went to the end of its block
            left
            have hrest : ¬ take = bytes.length := by
              intro hall
              rw [hall, List.drop_length, writeLoop_nil] at he
              cases he
            have htake' : take = scratchBlock - pos % scratchBlock := by omega
            have hsum : pos + take = scratchBlock * (pos / scratchBlock + 1) := by
              rw [Nat.mul_succ, Nat.mul_comm]
              omega
            rw [hsum, Nat.mul_mod_right]
          · exact .inr hk0

end Jed.Crypto
