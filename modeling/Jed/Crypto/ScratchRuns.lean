import Jed.Crypto.ScratchView

/-!
# Runs of a sealed scratch file

The calls of a sealed scratch file against those of a growable byte array, with its stored bytes
replaced between them or not.
-/

namespace Jed.Crypto

open Jed.GrowFile Jed.Runs SealedSpillFile

variable {env : Scratch} {honest : Prop} {s : SealedSpillFile} {plain : ℕ → Bytes} {f : Bytes}

variable {n fuel pos : ℕ} {e : ScratchError}

theorem readLoop_error (hn : n ≠ 0) (h : s.load env (pos / scratchBlock) = .error e) :
    s.readLoop env (fuel + 1) pos n = .error e := by
  simp only [readLoop, if_neg hn, h]

variable {block : Bytes}

theorem readLoop_ok (hn : n ≠ 0) (h : s.load env (pos / scratchBlock) = .ok block) :
    s.readLoop env (fuel + 1) pos n =
      (s.readLoop env fuel (pos + min (scratchBlock - pos % scratchBlock) n)
        (n - min (scratchBlock - pos % scratchBlock) n)).map
          (read block (pos % scratchBlock) (min (scratchBlock - pos % scratchBlock) n) ++ ·) := by
  simp only [readLoop, if_neg hn, h]
  cases s.readLoop env fuel (pos + min (scratchBlock - pos % scratchBlock) n)
    (n - min (scratchBlock - pos % scratchBlock) n) <;> rfl

theorem readLoop_spec (fuel pos n : ℕ) (hfuel : n ≤ fuel) (h : Keeps env honest s plain) :
    (∀ r, s.readLoop env fuel pos n = .ok r →
      r.length = n ∧ ∀ i, i < n → at_ 0 r i = viewAt s plain (pos + i)) ∧
      (honest → ∃ r, s.readLoop env fuel pos n = .ok r) := by
  induction fuel generalizing pos n with
  | zero =>
    obtain rfl := Nat.le_zero.1 hfuel
    refine ⟨fun r hr => ?_, fun _ => ⟨[], rfl⟩⟩
    cases hr
    exact ⟨rfl, nofun⟩
  | succ fuel ih =>
    by_cases hn : n = 0
    · subst hn
      refine ⟨fun r hr => ?_, fun _ => ⟨[], rfl⟩⟩
      cases hr
      exact ⟨rfl, nofun⟩
    · have hwithin := Nat.mod_lt pos scratchBlock_pos
      cases hload : s.load env (pos / scratchBlock) with
      | error e =>
        rw [readLoop_error hn hload]
        refine ⟨nofun, fun hh => ?_⟩
        rw [h.load_honest hh] at hload
        cases hload
      | ok block =>
        rw [readLoop_ok hn hload]
        generalize htake : min (scratchBlock - pos % scratchBlock) n = take
        obtain ⟨ihread, ihends⟩ := ih (pos + take) (n - take) (by omega)
        have hblock := h.load_ok hload
        have hlen : block.length = scratchBlock := hblock ▸ h.view_length _
        have hread : (read block (pos % scratchBlock) take).length = take := by
          rw [length_read]
          omega
        refine ⟨fun r hr => ?_, fun hh => ?_⟩
        · cases hrest : s.readLoop env fuel (pos + take) (n - take) with
          | error e =>
            rw [hrest] at hr
            cases hr
          | ok rest =>
            rw [hrest] at hr
            cases hr
            obtain ⟨hl, hat⟩ := ihread rest hrest
            refine ⟨by rw [List.length_append, hread, hl]; omega, fun i hi => ?_⟩
            rcases Nat.lt_or_ge i take with hit | hit
            · have hdiv := Nat.div_add_mod pos scratchBlock
              have hpos : pos + i =
                  pos % scratchBlock + i + scratchBlock * (pos / scratchBlock) := by omega
              have hmod : (pos + i) % scratchBlock = pos % scratchBlock + i := by
                rw [hpos, Nat.add_mul_mod_self_left, Nat.mod_eq_of_lt (by omega)]
              have hquot : (pos + i) / scratchBlock = pos / scratchBlock := by
                rw [hpos, Nat.add_mul_div_left _ _ scratchBlock_pos, Nat.div_eq_of_lt (by omega),
                  Nat.zero_add]
              rw [at_append_left (by omega), at_read hit, viewAt, hmod, hquot, hblock]
            · rw [at_append_right (by omega), hread, hat _ (by omega),
                show pos + take + (i - take) = pos + i by omega]
        · obtain ⟨rest, hrest⟩ := ihends hh
          rw [hrest]
          exact ⟨_, rfl⟩

/-- A read that returns gives what the array holds; in an honest file it returns. -/
theorem readAt_spec (h : Keeps env honest s plain) (hf : Shows s plain f) (offset len : ℕ) :
    (∀ r, s.readAt env offset len = .ok r → r = read f offset len) ∧
      (honest → ∃ r, s.readAt env offset len = .ok r) := by
  obtain ⟨hsize, hat⟩ := hf
  rw [readAt]
  by_cases hoff : offset ≥ s.size
  · rw [if_pos hoff]
    refine ⟨fun r hr => ?_, fun _ => ⟨_, rfl⟩⟩
    cases hr
    rw [GrowFile.read, List.drop_eq_nil_of_le (by omega), List.take_nil]
  · rw [if_neg hoff]
    obtain ⟨hread, hends⟩ := readLoop_spec (min len (s.size - offset)) offset
      (min len (s.size - offset)) (le_refl _) h
    refine ⟨fun r hr => ?_, hends⟩
    obtain ⟨hlen, hr⟩ := hread r hr
    refine ext (z := 0) (by rw [hlen, length_read, hsize]) fun i hi => ?_
    rw [hr i (by omega), hat, at_read (by omega)]

theorem isLive_dropBlocks (blocks k : ℕ) :
    (dropBlocks blocks s).isLive k = (decide (k < blocks) && s.isLive k) := by
  change (s.live.mapIdx fun i b => decide (i < blocks) && b).getD k false = _
  rw [isLive, List.getD_eq_getElem?_getD, List.getD_eq_getElem?_getD, List.getElem?_mapIdx]
  cases s.live[k]? with
  | none => rw [Option.map_none, Option.getD_none, Bool.and_false]
  | some b => rfl

theorem cached_dropBlocks {blocks k : ℕ} (h : (dropBlocks blocks s).cached = some (k, block)) :
    s.cached = some (k, block) ∧ k < blocks := by
  obtain ⟨hc, hk⟩ := Option.filter_eq_some_iff.1 h
  exact ⟨hc, of_decide_eq_true hk⟩

theorem view_dropBlocks (blocks k : ℕ) :
    view (dropBlocks blocks s) plain k = if k < blocks then view s plain k else zeros := by
  have hcached : (dropBlocks blocks s).cachedAt k = if k < blocks then s.cachedAt k else none := by
    rw [cachedAt, cachedAt, dropBlocks]
    dsimp only
    cases hc : s.cached with
    | none => exact (ite_self none).symm
    | some c =>
      rw [Option.filter_some]
      by_cases hck : c.1 = k
      · subst hck
        by_cases hlt : c.1 < blocks
        · rw [if_pos (decide_eq_true hlt), if_pos hlt]
        · rw [if_neg (by rw [decide_eq_true_eq]; exact hlt), if_neg hlt]
      · dsimp only
        rw [if_neg hck, ite_self]
        split
        next c' _ heq =>
          split at heq
          · cases heq
            exact if_neg hck
          · cases heq
        next => rfl
  rw [view, view, hcached, isLive_dropBlocks]
  by_cases hk : k < blocks
  · rw [if_pos hk, if_pos hk, decide_eq_true hk, Bool.true_and]
  · rw [if_neg hk, if_neg hk, decide_eq_false hk, Bool.false_and]
    rfl

theorem Keeps.dropBlocks (h : Keeps env honest s plain) (blocks : ℕ) :
    Keeps env honest (dropBlocks blocks s) plain := by
  have hlive : ∀ k, (Crypto.dropBlocks blocks s).isLive k = true → k < blocks ∧ s.isLive k = true := by
    intro k hk
    rw [isLive_dropBlocks, Bool.and_eq_true, decide_eq_true_eq] at hk
    exact hk
  have hroom : ∀ k, k < blocks → k * scratchStored + scratchStored ≤ blocks * scratchStored := by
    intro k hk
    rw [← Nat.succ_mul]
    exact Nat.mul_le_mul_right _ hk
  have hregion : ∀ k, (Crypto.dropBlocks blocks s).isLive k = true →
      (Crypto.dropBlocks blocks s).region k = s.region k := fun k hk =>
    read_resize (hroom k (hlive k hk).1) (h.full k (hlive k hk).2)
  constructor
  case live_length =>
    exact List.length_mapIdx.trans h.live_length
  case cached_length => exact fun k block hc => h.cached_length k block (cached_dropBlocks hc).1
  case plain_length => exact h.plain_length
  case logged => exact h.logged
  case latest => exact fun k hk => h.latest k (hlive k hk).2
  case full =>
    intro k hk
    change _ ≤ (resize 0 s.inner (blocks * scratchStored)).length
    rw [length_resize]
    exact hroom k (hlive k hk).1
  case opens =>
    intro k hk
    rw [hregion k hk]
    exact h.opens k (hlive k hk).2
  case opened =>
    intro hh k hk
    rw [hregion k hk]
    exact h.opened hh k (hlive k hk).2

/-- A block cached, the one cached before stored where it is another. -/
def recache (env : Scratch) (s : SealedSpillFile) (k : ℕ) (block : Bytes) : SealedSpillFile :=
  { (if (s.cachedAt k).isSome then s else s.flushCached env) with cached := some (k, block) }

theorem Keeps.recache (h : Keeps env honest s plain) (k : ℕ) (hblock : block.length = scratchBlock) :
    ∃ plain', Keeps env honest (recache env s k block) plain' ∧
      ∀ j, view (Crypto.recache env s k block) plain' j = if k = j then block else view s plain j := by
  cases hc : s.cachedAt k with
  | some old =>
    have hre : Crypto.recache env s k block = { s with cached := some (k, block) } := by
      rw [Crypto.recache, hc]
      rfl
    rw [hre]
    refine ⟨plain, h.cache k hblock, fun j => ?_⟩
    rw [view, view, cachedAt_of_cached rfl, cachedAt_of_cached (cachedAt_eq hc)]
    by_cases hkj : k = j
    · rw [if_pos hkj, if_pos hkj]
      rfl
    · rw [if_neg hkj, if_neg hkj, if_neg hkj]
      rfl
  | none =>
    have hre : Crypto.recache env s k block = { s.flushCached env with cached := some (k, block) } := by
      rw [Crypto.recache, hc]
      rfl
    rw [hre]
    obtain ⟨plain', hkeeps, hnone, -, hview⟩ := h.flush
    refine ⟨plain', hkeeps.cache k hblock, fun j => ?_⟩
    rw [view_cache hnone, hview]

theorem cutBlock_whole (hn : n % scratchBlock = 0) : cutBlock env n s = .ok s := by
  simp only [cutBlock, if_pos hn]

theorem cutBlock_error (hn : n % scratchBlock ≠ 0)
    (h : s.load env (n / scratchBlock) = .error e) : cutBlock env n s = .error e := by
  simp only [cutBlock, if_neg hn, h]

theorem cutBlock_ok (hn : n % scratchBlock ≠ 0) (h : s.load env (n / scratchBlock) = .ok block) :
    cutBlock env n s = .ok (recache env s (n / scratchBlock) (splice block (n % scratchBlock)
      (List.replicate (scratchBlock - n % scratchBlock) 0))) := by
  simp only [cutBlock, if_neg hn, h]
  rfl

/-- A file cut within its block `n / scratchBlock`. -/
def Cut (env : Scratch) (honest : Prop) (s : SealedSpillFile) (plain : ℕ → Bytes) (n : ℕ)
    (s' : SealedSpillFile) : Prop :=
  ∃ plain', Keeps env honest s' plain' ∧
    ∀ i, i / scratchBlock < (n + (scratchBlock - 1)) / scratchBlock →
      viewAt s' plain' i = if i < n then viewAt s plain i else 0

theorem lt_blocks {k : ℕ} : k < (n + (scratchBlock - 1)) / scratchBlock ↔ k * scratchBlock < n := by
  have := scratchBlock_pos
  rw [← Nat.succ_le_iff, Nat.le_div_iff_mul_le scratchBlock_pos, Nat.succ_mul]
  omega

theorem cutBlock_spec (h : Keeps env honest s plain) (n : ℕ) :
    (∀ s', cutBlock env n s = .ok s' → Cut env honest s plain n s') ∧
      (honest → ∃ s', cutBlock env n s = .ok s') := by
  have hdiv := Nat.div_add_mod n scratchBlock
  have hwithin := Nat.mod_lt n scratchBlock_pos
  by_cases hn : n % scratchBlock = 0
  · rw [cutBlock_whole hn]
    refine ⟨fun s' hs' => ?_, fun _ => ⟨s, rfl⟩⟩
    cases hs'
    refine ⟨plain, h, fun i hi => ?_⟩
    rw [lt_blocks] at hi
    have hi' : i < n := by
      have hlt : i / scratchBlock < n / scratchBlock := by
        rw [hn, Nat.add_zero, Nat.mul_comm] at hdiv
        rw [← hdiv] at hi
        exact Nat.lt_of_mul_lt_mul_right hi
      have := Nat.lt_mul_of_div_lt hlt scratchBlock_pos
      rw [Nat.mul_comm] at this
      omega
    rw [if_pos hi']
  · cases hload : s.load env (n / scratchBlock) with
    | error e =>
      rw [cutBlock_error hn hload]
      refine ⟨nofun, fun hh => ?_⟩
      rw [h.load_honest hh] at hload
      cases hload
    | ok block =>
      have hblock := h.load_ok hload
      have hlen : block.length = scratchBlock := hblock ▸ h.view_length _
      have hfits : n % scratchBlock +
          (List.replicate (scratchBlock - n % scratchBlock) (0 : UInt8)).length ≤ block.length := by
        rw [List.length_replicate]
        omega
      rw [cutBlock_ok hn hload]
      refine ⟨fun s' hs' => ?_, fun _ => ⟨_, rfl⟩⟩
      cases hs'
      obtain ⟨plain', hkeeps, hview⟩ := h.recache (n / scratchBlock)
        ((length_splice hfits).trans hlen)
      refine ⟨plain', hkeeps, fun i hi => ?_⟩
      rw [lt_blocks] at hi
      have hidiv := Nat.div_add_mod i scratchBlock
      have hiwithin := Nat.mod_lt i scratchBlock_pos
      rw [viewAt, hview]
      by_cases hcut : n / scratchBlock = i / scratchBlock
      · rw [← hcut] at hidiv
        rw [if_pos hcut, at_splice hfits, List.length_replicate]
        by_cases hin : i < n
        · rw [if_neg (by omega), if_pos hin, viewAt, hblock, hcut]
        · rw [if_pos (by omega), if_neg hin, at_replicate]
      · have hin : i < n := by
          rcases Nat.lt_or_ge (i / scratchBlock) (n / scratchBlock) with hlt | hge
          · exact lt_of_not_ge fun hge => absurd (Nat.div_le_div_right (c := scratchBlock) hge)
              (by omega)
          · have hle : n / scratchBlock + 1 ≤ i / scratchBlock := by omega
            have := Nat.mul_le_mul_right scratchBlock hle
            rw [Nat.succ_mul, Nat.mul_comm (n / scratchBlock)] at this
            omega
        rw [if_neg hcut, if_pos hin, viewAt]

theorem within_dropBlocks (n : ℕ) :
    Within (dropBlocks ((n + (scratchBlock - 1)) / scratchBlock) s) n := by
  refine ⟨fun k hk => ?_, fun k block hk => lt_blocks.1 (cached_dropBlocks hk).2⟩
  rw [isLive_dropBlocks, Bool.and_eq_true, decide_eq_true_eq] at hk
  exact lt_blocks.1 hk.1

/-- The sealed file stands for the array. -/
def Refines (env : Scratch) (honest : Prop) (s : SealedSpillFile) (f : Bytes) : Prop :=
  ∃ plain, Keeps env honest s plain ∧ Shows s plain f ∧ Within s s.size

theorem refines_created : Refines env honest created [] := by
  refine ⟨fun _ => zeros, .created, ⟨rfl, fun i => ?_⟩, nofun, nofun⟩
  have hview : view created (fun _ => zeros) (i / scratchBlock) = zeros := rfl
  rw [viewAt, hview, zeros, at_replicate]
  rfl

/-- One call keeps the array, and in an honest file it succeeds. -/
def Sound (env : Scratch) (honest : Prop) (call : Call) (s : SealedSpillFile) (f : Bytes) : Prop :=
  (∃ f', call.Leaves f (call.run env s).1 f' ∧ Refines env honest (call.run env s).2 f') ∧
    (honest → ∃ a, (call.run env s).1 = .ok a)

theorem readAt_sound (h : Refines env honest s f) (offset len : ℕ) :
    Sound env honest (.readAt offset len) s f := by
  obtain ⟨plain, hkeeps, hshows, hw⟩ := h
  obtain ⟨hread, hends⟩ := readAt_spec hkeeps hshows offset len
  refine ⟨⟨f, ?_, plain, hkeeps, hshows, hw⟩, fun hh => ?_⟩
  · cases hr : s.readAt env offset len with
    | error e =>
      simp only [Call.run, hr, Except.map]
      rfl
    | ok r =>
      simp only [Call.run, hr, Except.map]
      rw [hread r hr]
      rfl
  · obtain ⟨r, hr⟩ := hends hh
    exact ⟨.bytes r, by simp only [Call.run, hr, Except.map]⟩

theorem size_sound (h : Refines env honest s f) : Sound env honest .size s f := by
  obtain ⟨plain, hkeeps, hshows, hw⟩ := h
  refine ⟨⟨f, ?_, plain, hkeeps, hshows, hw⟩, fun _ => ⟨_, rfl⟩⟩
  change (Answer.size f.length, f) = (Answer.size s.size, f)
  rw [hshows.1]

theorem writeAt_sound (h : Refines env honest s f) (offset : ℕ) (bytes : Bytes) :
    Sound env honest (.writeAt offset bytes) s f := by
  have hkept := h
  obtain ⟨plain, hkeeps, ⟨hsize, hat⟩, hw⟩ := h
  obtain ⟨k, hk⟩ := writeLoop_spec bytes.length offset bytes (le_refl _) hkeeps
    (hw.mono (Nat.le_max_left _ _))
  obtain ⟨plain', hkeeps', hsize', hview⟩ := hk.wrote
  have hwithin := hk.within
  have htake : (bytes.take k).length = k := by
    have := hk.le
    rw [List.length_take]
    omega
  cases hr : writeLoop env bytes.length offset bytes s with
  | mk r s' =>
    rw [hr] at hk hkeeps' hsize' hview hwithin
    dsimp only at hkeeps' hsize' hview hwithin
    cases r with
    | error e =>
      have hrun : Call.run env (.writeAt offset bytes) s = (.error e, s') := by
        simp only [Call.run, SealedSpillFile.writeAt, hr, Except.map]
      rw [Sound, hrun]
      refine ⟨⟨splice f offset (bytes.take k), ?_⟩, fun hh => nomatch hk.ends hh⟩
      by_cases hk0 : k = 0
      · obtain rfl : s' = s := hk.kept hk0
        refine ⟨⟨k, .inl hk0, rfl⟩, ?_⟩
        rw [hk0, List.take_zero, splice, List.nil_append, List.length_nil, Nat.add_zero,
          List.take_append_drop]
        exact hkept
      · have hin := hk.inside e rfl (.inr hk0)
        have hfits : offset + (bytes.take k).length ≤ f.length := by omega
        refine ⟨⟨k, .inr (by omega), rfl⟩, plain', hkeeps', ⟨?_, fun i => ?_⟩, ?_⟩
        · rw [length_splice hfits, hsize, hsize']
        · rw [hview, at_splice hfits, hat]
        · rw [hsize']
          exact hwithin.mono (by omega)
    | ok u =>
      have hrun : Call.run env (.writeAt offset bytes) s =
          (.ok .done, { s' with size := max s'.size (offset + bytes.length) }) := by
        simp only [Call.run, SealedSpillFile.writeAt, hr, Except.map]
      have hall := hk.all u rfl
      rw [hall, List.take_length] at hview
      rw [hall] at hwithin
      rw [Sound, hrun]
      refine ⟨⟨write 0 f offset bytes, rfl, plain', hkeeps'.resized _, ⟨?_, fun i => ?_⟩, ?_⟩,
        fun _ => ⟨_, rfl⟩⟩
      · rw [length_write, hsize, hsize']
      · rw [at_write, ← hat i]
        exact hview i
      · rw [hsize']
        exact hwithin

theorem truncate_sound (h : Refines env honest s f) (n : ℕ) :
    Sound env honest (.truncate n) s f := by
  have hkept := h
  obtain ⟨plain, hkeeps, ⟨hsize, hat⟩, hw⟩ := h
  obtain ⟨hcut, hends⟩ := cutBlock_spec hkeeps n
  by_cases hn : n < s.size
  · cases hr : cutBlock env n s with
    | error e =>
      have hrun : Call.run env (.truncate n) s = (.error e, s) := by
        simp only [Call.run, SealedSpillFile.truncate, if_pos hn, hr, Except.map]
      rw [Sound, hrun]
      refine ⟨⟨f, rfl, hkept⟩, fun hh => ?_⟩
      obtain ⟨s', hs'⟩ := hends hh
      rw [hs'] at hr
      cases hr
    | ok s' =>
      have hrun : Call.run env (.truncate n) s = (.ok .done,
          { dropBlocks ((n + (scratchBlock - 1)) / scratchBlock) s' with size := n }) := by
        simp only [Call.run, SealedSpillFile.truncate, if_pos hn, hr, Except.map]
      obtain ⟨plain', hkeeps', hview⟩ := hcut s' hr
      rw [Sound, hrun]
      refine ⟨⟨resize 0 f n, rfl, plain', (hkeeps'.dropBlocks _).resized n,
        ⟨length_resize, fun i => ?_⟩, within_dropBlocks n⟩, fun _ => ⟨_, rfl⟩⟩
      change at_ 0 (view (dropBlocks ((n + (scratchBlock - 1)) / scratchBlock) s') plain'
        (i / scratchBlock)) (i % scratchBlock) = _
      rw [view_dropBlocks, at_resize, ← hat]
      by_cases hi : i / scratchBlock < (n + (scratchBlock - 1)) / scratchBlock
      · rw [if_pos hi]
        exact hview i hi
      · have hge : ¬ i < n := by
          intro hlt
          rw [lt_blocks] at hi
          have := Nat.div_mul_le_self i scratchBlock
          omega
        rw [if_neg hi, if_neg hge, zeros, at_replicate]
  · have hrun : Call.run env (.truncate n) s = (.ok .done, { s with size := n }) := by
      simp only [Call.run, SealedSpillFile.truncate, if_neg hn, Except.map]
    rw [Sound, hrun]
    refine ⟨⟨resize 0 f n, rfl, plain, hkeeps.resized n, ⟨length_resize, fun i => ?_⟩,
      hw.mono (Nat.le_of_not_lt hn)⟩, fun _ => ⟨_, rfl⟩⟩
    rw [at_resize, ← hat]
    split
    · rfl
    · exact (hat i).trans (at_of_ge (by omega))

theorem call_sound (h : Refines env honest s f) (call : Call) : Sound env honest call s f := by
  cases call with
  | readAt offset len => exact readAt_sound h offset len
  | writeAt offset bytes => exact writeAt_sound h offset bytes
  | truncate n => exact truncate_sound h n
  | size => exact size_sound h

theorem answers_eq {f : Bytes} (h : Refines env True s f) (calls : List Call) :
    answers env calls s = (plainAnswers calls f).map .ok := by
  induction calls generalizing s f with
  | nil => rfl
  | cons call calls ih =>
    obtain ⟨⟨f', hleaves, hrefines⟩, hends⟩ := call_sound h call
    obtain ⟨a, ha⟩ := hends trivial
    rw [ha] at hleaves
    have hplain : call.plain f = (a, f') := by
      cases call <;> exact hleaves
    rw [answers, plainAnswers, List.map_cons, ih hrefines, ha, hplain]

/-- Replaced bytes open to the latest sealing of a live block, or not at all. -/
theorem refines_replaced {inner : Bytes} (h : Refines env False s f)
    (hlength : inner.length = s.inner.length)
    (hauthentic : ∀ k, k * scratchStored + scratchStored ≤ inner.length →
      Authentic env s.log (read inner (k * scratchStored) scratchStored)) :
    Refines env False { s with inner := inner } f := by
  obtain ⟨plain, hkeeps, hshows, hw⟩ := h
  refine ⟨plain, ?_, hshows, hw⟩
  have hfull : ∀ k, s.isLive k = true → k * scratchStored + scratchStored ≤ inner.length := by
    intro k hk
    rw [hlength]
    exact hkeeps.full k hk
  exact
    { live_length := hkeeps.live_length
      cached_length := hkeeps.cached_length
      plain_length := hkeeps.plain_length
      logged := hkeeps.logged
      latest := hkeeps.latest
      full := hfull
      opens := fun k hk block hopen =>
        hkeeps.latest k hk block (hauthentic k (hfull k hk) _ _ hopen)
      opened := False.elim }

theorem ran_refines {given : List (Call × Except ScratchError Answer)} (h : Ran env s given) :
    ∃ f, Held f given ∧ Refines env False s f := by
  induction h with
  | created => exact ⟨[], .created, refines_created⟩
  | call _ call ih =>
    obtain ⟨f, hheld, hrefines⟩ := ih
    obtain ⟨⟨f', hleaves, hrefines'⟩, -⟩ := call_sound hrefines call
    exact ⟨f', .call hheld hleaves, hrefines'⟩
  | replaced _ hlength hauthentic ih =>
    obtain ⟨f, hheld, hrefines⟩ := ih
    exact ⟨f, hheld, refines_replaced hrefines hlength hauthentic⟩

/-- A sealed scratch file answers every sequence of calls as a growable byte array does, and, whatever its
    stored bytes are replaced by between them, as one does or with a failure. -/
theorem scratch_refines_array (env : Scratch) :
    (∀ calls, answers env calls created = (plainAnswers calls []).map .ok) ∧
      ∀ s given, Ran env s given → ∃ f, Held f given ∧ f.length = s.size ∧
        ∀ offset len r, s.readAt env offset len = .ok r → r = read f offset len := by
  refine ⟨fun calls => answers_eq refines_created calls, fun s given h => ?_⟩
  obtain ⟨f, hheld, plain, hkeeps, hshows, -⟩ := ran_refines h
  exact ⟨f, hheld, hshows.1, fun offset len => (readAt_spec hkeeps hshows offset len).1⟩

end Jed.Crypto
