import Mathlib.Data.List.GetD
import Jed.Lib.Runs
import Jed.Crypto.Handle

/-!
# The key block unlocks the pages beside it

In a run in which a `write_key_block` begins only where its block fits the storage, whatever a power
loss leaves opens with exactly one credential, to the key its pages are sealed under.
-/

namespace Jed.Crypto

open Stable

/-- The codec's copy wraps its own data key. -/
def Honest (c : PageCodec) : Prop := c.keyBlock.dek = c.dek

def Target.Honest : Target → Prop
  | .same => True
  | .fresh codec => ∀ c ∈ codec, Crypto.Honest c

/-- The codecs of a handle and its threads are honest, and a derived block has a generation. -/
structure Handle.Sound (h : Handle) : Prop where
  codecs : ∀ c ∈ h.codecs, Honest c
  codec : ∀ r ∈ h.codec, r < h.codecs.length
  created : ∀ t c, h.threads t = .created (some c) → Honest c
  derived : ∀ t b, h.threads t = .derived b → b.generation ≠ 0

namespace State

/-- What holds of the file while a thread stands there with the gate. -/
def Stage (s : State) (h : Handle) : Option (ℕ × Gated) → Prop
  | none => s.file.Shows h.keyBlock
  | some (_, .checking block) => s.file.Shows h.keyBlock ∧ block.generation ≠ 0
  | some (_, .stable block) => s.previous = [] ∧ ∃ a, h.keyBlock = some a ∧
      s.candidates = [some block, some a] ∧ Changing s.file a block
  | some (_, .first block page) => s.previous = [] ∧ ∃ a f, h.keyBlock = some a ∧
      s.candidates = [some block, some a] ∧ Changing f a block ∧ page = f.first ∧
      s.file = f.write f.first (.keyBlock block)
  | some (_, .firstDurable block page) => s.previous = [] ∧ ∃ a f, h.keyBlock = some a ∧
      s.candidates = [some block, some a] ∧ Changing f a block ∧ page = f.first ∧
      s.file = (f.write f.first (.keyBlock block)).sync
  | some (_, .other block) => s.previous = [] ∧ ∃ a f, h.keyBlock = some a ∧
      s.candidates = [some block, some a] ∧ Changing f a block ∧
      s.file = (f.write f.first (.keyBlock block)).sync.write (5 - f.first) (.keyBlock block)
  | some (_, .replacing target) => s.file.Shows h.keyBlock ∧ target.Honest
  | some (_, .replaced target) => s.file.Clean ∧ target.Honest ∧
      s.file.Shows ((h.target target).map PageCodec.keyBlock)
  | some (_, .committing) => s.file.Shows h.keyBlock

/-- What holds of the file while an open repairs its pair of copies. -/
def Repairing (s : State) (b : KeyBlock) : Repair → Prop
  | .start => s.file.Shows (some b)
  | .stable => Changing s.file b b
  | .written => ∃ f, Changing f b b ∧ s.file = f.write f.first (.keyBlock b)

def ProcessInv (s : State) : Process → Prop
  | .down => True
  | .repairing codec stage => Honest codec ∧ some codec.keyBlock ∈ s.candidates ∧
      s.Repairing codec.keyBlock stage
  | .up h => h.Sound ∧ s.Stage h h.gate

/-- The invariant of the runs. -/
structure Inv (s : State) : Prop where
  calm : s.panicked = false
  holds : ∀ f ∈ s.file :: s.previous, f.Holds s.candidates
  process : s.ProcessInv s.process

end State

/-! ## The handle -/

theorem Handle.Sound.honest {h : Handle} (hs : h.Sound) {c : PageCodec} (hc : h.pageCodec = some c) :
    Honest c := by
  cases hcodec : h.codec with
  | none =>
    rw [Handle.pageCodec, hcodec] at hc
    cases hc
  | some r =>
    rw [Handle.pageCodec, hcodec, Option.bind_some] at hc
    exact hs.codecs c (List.mem_of_getElem? hc)

theorem Handle.keyBlock_eq {h : Handle} {a : KeyBlock} (ha : h.keyBlock = some a) :
    ∃ c, h.pageCodec = some c ∧ c.keyBlock = a :=
  Option.map_eq_some_iff.mp ha

theorem threads_move (h : Handle) (t t' : ℕ) (l : Local) :
    (h.move t l).threads t' = if t' = t then l else h.threads t' :=
  Function.update_apply h.threads t l t'

theorem sound_move {h : Handle} (hs : h.Sound) {t : ℕ} {l : Local}
    (hcreated : ∀ c, l = .created (some c) → Honest c)
    (hderived : ∀ b, l = .derived b → b.generation ≠ 0) : (h.move t l).Sound := by
  refine ⟨hs.codecs, hs.codec, fun t' c hc => ?_, fun t' b hb => ?_⟩
  · rw [threads_move] at hc
    split at hc
    · exact hcreated c hc
    · exact hs.created t' c hc
  · rw [threads_move] at hb
    split at hb
    · exact hderived b hb
    · exact hs.derived t' b hb

theorem sound_answer {h : Handle} (hs : h.Sound) (t : ℕ) (r : Except SqlState Unit) :
    (h.answer t r).Sound :=
  sound_move hs (fun _ hc => by cases hc) (fun _ hb => by cases hb)

theorem sound_gate {h : Handle} (hs : h.Sound) (g : Option (ℕ × Gated)) :
    { h with gate := g }.Sound :=
  ⟨hs.codecs, hs.codec, hs.created, hs.derived⟩

theorem sound_release {h : Handle} (hs : h.Sound) (t : ℕ) (r : Except SqlState Unit) :
    (h.release t r).Sound :=
  sound_gate (sound_answer hs t r) none

theorem sound_opened (readOnly : Bool) {codec : Option PageCodec} (h : ∀ c ∈ codec, Honest c) :
    (Handle.opened readOnly codec).Sound := by
  refine ⟨fun c hc => h c (Option.mem_toList.mp hc), fun r hr => ?_, fun t c hc => ?_, fun t b hb => ?_⟩
  · cases codec with
    | none => cases hr
    | some c =>
      cases hr
      exact Nat.zero_lt_one
  · cases hc
  · cases hb

theorem sound_install {h : Handle} (hs : h.Sound) {target : Target} (htarget : target.Honest) :
    (h.install target).Sound := by
  cases target with
  | same => exact hs
  | fresh codec =>
    cases codec with
    | none =>
      refine ⟨hs.codecs, fun r hr => ?_, hs.created, hs.derived⟩
      cases hr
    | some c =>
      refine ⟨fun c' hc' => ?_, fun r hr => ?_, hs.created, hs.derived⟩
      · rcases List.mem_append.mp hc' with hold | hnew
        · exact hs.codecs c' hold
        · rw [List.mem_singleton.mp hnew]
          exact htarget c rfl
      · cases hr
        rw [Handle.install, List.length_append, List.length_singleton]
        exact Nat.lt_succ_self _

theorem keyBlock_install (h : Handle) (target : Target) :
    (h.install target).keyBlock = (h.target target).map PageCodec.keyBlock := by
  cases target with
  | same => rfl
  | fresh codec =>
    cases codec with
    | none => rfl
    | some c => simp [Handle.install, Handle.keyBlock, Handle.pageCodec, Handle.target]

theorem honest_target {h : Handle} (hs : h.Sound) {target : Target} (htarget : target.Honest) :
    ∀ c ∈ h.target target, Honest c := by
  cases target with
  | same => exact fun c hc => hs.honest hc
  | fresh codec => exact htarget

/-- A key-block change leaves the codec with the new block. -/
theorem setKeyBlock_spec {h : Handle} (hs : h.Sound) {a b : KeyBlock} (ha : h.keyBlock = some a)
    (hdek : b.dek = a.dek) : (h.setKeyBlock b).Sound ∧ (h.setKeyBlock b).keyBlock = some b := by
  obtain ⟨c, hc, hca⟩ := Handle.keyBlock_eq ha
  cases hcodec : h.codec with
  | none =>
    rw [Handle.pageCodec, hcodec] at hc
    cases hc
  | some r =>
    have hget : h.codecs[r]? = some c := by
      rwa [Handle.pageCodec, hcodec] at hc
    have hset : h.setKeyBlock b =
        { h with codecs := h.codecs.modify r fun c => { c with keyBlock := b } } := by
      rw [Handle.setKeyBlock, hcodec]
    rw [hset]
    refine ⟨⟨fun c' hc' => ?_, fun r' hr' => ?_, hs.created, hs.derived⟩, ?_⟩
    · obtain ⟨i, hi⟩ := List.mem_iff_getElem?.mp hc'
      rw [List.getElem?_modify] at hi
      by_cases hir : r = i
      · subst hir
        rw [hget] at hi
        simp only [if_true, Option.map_eq_map, Option.map_some, Option.some.injEq] at hi
        rw [← hi]
        exact hdek.trans (hca ▸ hs.honest hc)
      · simp only [if_neg hir, id_map'] at hi
        exact hs.codecs c' (List.mem_of_getElem? hi)
    · rw [List.length_modify]
      exact hs.codec r' hr'
    · simp [Handle.keyBlock, Handle.pageCodec, hcodec, hget]

/-! ## Opening -/

theorem unlockPager_spec {f : File} {o : Option KeyBlock} (h : f.Shows o) {cred : Option Credential}
    {codec : Option PageCodec} (hopen : unlockPager f cred = .ok codec) :
    codec.map PageCodec.keyBlock = o ∧ ∀ c ∈ codec, Honest c := by
  have hselects := h.selects
  cases o with
  | none =>
    have he : f.encrypted = false := hselects.1
    cases cred with
    | none =>
      simp only [unlockPager, he, Except.ok.injEq] at hopen
      subst hopen
      exact ⟨rfl, fun c hc => by cases hc⟩
    | some cred => simp [unlockPager, he] at hopen
  | some b =>
    have he : f.encrypted = true := hselects.1
    have hselect := hselects.2 b rfl
    cases cred with
    | none => simp [unlockPager, he] at hopen
    | some cred =>
      by_cases hcred : cred = b.credential
      · simp only [unlockPager, he, unlock, hselect, hcred, bind, Except.bind, pure, Except.pure,
          if_true, Except.ok.injEq] at hopen
        subst hopen
        refine ⟨rfl, ?_⟩
        rintro c ⟨⟩
        rfl
      · simp [unlockPager, he, unlock, hselect, hcred, bind, Except.bind] at hopen

theorem holds_sync {f : File} {os : List (Option KeyBlock)} (h : f.Holds os) : f.sync.Holds os := by
  obtain ⟨o, ho, hshows⟩ := h.shows
  refine Holds_mono ((clean_sync f).holds (shows_sync hshows)) fun o' ho' => ?_
  rw [List.mem_singleton.mp ho']
  exact ho

namespace State

theorem opensNow_of_shows {f : File} {o : Option KeyBlock} (h : f.Shows o) : opensNow f o = true := by
  have hselects := h.selects
  cases o with
  | none => simp [opensNow, hselects.1]
  | some b => simp [opensNow, hselects.1, hselects.2 b rfl]

namespace Inv

variable {s : State}

theorem holds_file (hs : s.Inv) : s.file.Holds s.candidates := hs.holds _ List.mem_cons_self

theorem holds_previous (hs : s.Inv) : ∀ f ∈ s.previous, f.Holds s.candidates :=
  fun f hf => hs.holds f (List.mem_cons_of_mem _ hf)

theorem kill (hs : s.Inv) : { s with process := .down }.Inv := ⟨hs.calm, hs.holds, trivial⟩

theorem lose (hs : s.Inv) (i : ℕ) (k : ℕ → ℕ) : (s.lose i k).Inv := by
  have hmem : (s.file :: s.previous).getD i s.file ∈ s.file :: s.previous := by
    by_cases hi : i < (s.file :: s.previous).length
    · rw [List.getD_eq_getElem _ _ hi]
      exact List.getElem_mem hi
    · rw [List.getD_eq_default _ _ (not_lt.mp hi)]
      exact List.mem_cons_self
  obtain ⟨o, ho, hshows⟩ := (hs.holds _ hmem).pick k
  refine ⟨hs.calm, fun f hf => ?_, trivial⟩
  obtain rfl := List.mem_singleton.mp hf
  refine Holds_mono ((clean_pick _ k).holds hshows) fun o' ho' => ?_
  rw [List.mem_singleton.mp ho']
  exact List.mem_filter.mpr ⟨ho, opensNow_of_shows hshows⟩

theorem up (hs : s.Inv) {h : Handle} (hsound : h.Sound) (hstage : s.Stage h h.gate) : (s.up h).Inv :=
  ⟨hs.calm, hs.holds, hsound, hstage⟩

theorem opened (hs : s.Inv) (cred : Option Credential) (readOnly : Bool) :
    (s.opened cred readOnly).Inv := by
  obtain ⟨o, ho, hshows⟩ := hs.holds_file.shows
  unfold State.opened
  split
  · exact hs
  · rename_i hopen
    obtain ⟨rfl, hhonest⟩ := unlockPager_spec hshows hopen
    exact hs.up (sound_opened readOnly hhonest) hshows
  · rename_i codec hopen
    obtain ⟨rfl, hhonest⟩ := unlockPager_spec hshows hopen
    split
    · exact hs.up (sound_opened readOnly hhonest) hshows
    · exact ⟨hs.calm, hs.holds, hhonest codec rfl, ho, hshows⟩

theorem repaired (hs : s.Inv) {codec : PageCodec} {stage : Repair}
    (hprocess : s.process = .repairing codec stage) : (s.repaired codec stage).Inv := by
  have hinv := hs.process
  rw [hprocess] at hinv
  obtain ⟨hhonest, hmem, hstage⟩ := hinv
  have hcandidates : ∀ {f : File}, f.Holds [some codec.keyBlock, some codec.keyBlock] →
      f.Holds s.candidates := fun h => Holds_mono h fun o ho => by
    simp only [List.mem_cons, List.not_mem_nil, or_false, or_self] at ho
    rw [ho]
    exact hmem
  cases stage with
  | start =>
    refine ⟨hs.calm, fun f hf => ?_, hhonest, hmem, clean_sync _, shows_sync hstage, rfl, .inl rfl⟩
    rcases List.mem_cons.mp hf with rfl | hf
    · exact holds_sync hs.holds_file
    · exact hs.holds_previous f hf
  | stable =>
    refine ⟨hs.calm, fun f hf => ?_, hhonest, hmem, s.file, hstage, rfl⟩
    rcases List.mem_cons.mp hf with rfl | hf
    · exact hcandidates (Changing.holds_first hstage)
    · exact hs.holds_previous f hf
  | written =>
    obtain ⟨f₀, hchanging, hfile⟩ := hstage
    have hsound : (Handle.opened false (some codec)).Sound := sound_opened false (by
      rintro c ⟨⟩
      exact hhonest)
    have hshows := hchanging.shows_first
    rw [← hfile] at hshows
    refine ⟨hs.calm, fun f hf => ?_, hsound, hshows⟩
    rcases List.mem_cons.mp hf with rfl | hf
    · exact holds_sync hs.holds_file
    · exact hs.holds_previous f hf

/-! ## Calls -/

variable {h : Handle} {t : ℕ}

theorem stage_move {g : Option (ℕ × Gated)} {l : Local} (hstage : s.Stage h g) :
    s.Stage (h.move t l) g := hstage

theorem answer (hs : s.Inv) (hsound : h.Sound) (hstage : s.Stage h h.gate)
    (r : Except SqlState Unit) : (s.up (h.answer t r)).Inv :=
  hs.up (sound_answer hsound t r) (stage_move hstage)

theorem move (hs : s.Inv) (hsound : h.Sound) (hstage : s.Stage h h.gate) {l : Local}
    (hcreated : ∀ c, l = .created (some c) → Honest c)
    (hderived : ∀ b, l = .derived b → b.generation ≠ 0) : (s.up (h.move t l)).Inv :=
  hs.up (sound_move hsound hcreated hderived) (stage_move hstage)

theorem release (hs : s.Inv) (hsound : h.Sound) (hshows : s.file.Shows h.keyBlock)
    (r : Except SqlState Unit) : (s.up (h.release t r)).Inv :=
  hs.up (sound_release hsound t r) hshows

theorem tryAcquire (hs : s.Inv) (hsound : h.Sound) (hstage : s.Stage h h.gate) {g : Gated}
    (hg : s.file.Shows h.keyBlock → s.Stage h (some (t, g))) : (s.up (h.tryAcquire t g)).Inv := by
  unfold Handle.tryAcquire
  split
  · rename_i hgate
    rw [hgate] at hstage
    have hsound' : (h.move t .holding).Sound :=
      sound_move hsound (fun _ hc => by cases hc) (fun _ hb => by cases hb)
    exact hs.up (sound_gate hsound' _) (hg hstage)
  · exact hs.answer hsound hstage _

variable {s' : State}

theorem begin (hs : s.Inv) (hsound : h.Sound) (hstage : s.Stage h h.gate) {h' : Handle}
    (hstep : s.begin h t h' = some s') (h' : (s.up h').Inv) : s'.Inv := by
  unfold State.begin at hstep
  split at hstep
  · cases hstep
    split
    · exact hs.answer hsound hstage _
    · exact h'
  · cases hstep

theorem changeCredential (hs : s.Inv) (hsound : h.Sound) (hstage : s.Stage h h.gate)
    (cred : Credential) (params : Argon2Params) :
    (s.up (State.changeCredential h t cred params)).Inv := by
  unfold State.changeCredential
  split
  · exact hs.answer hsound hstage _
  · exact hs.move hsound hstage (fun _ hc => by cases hc) (fun _ hb => by cases hb)

variable {drawn : Bytes} {c : PageCodec} {cred : Credential} {params : Argon2Params}

theorem create_honest {dek : Bytes} (h : create cred params dek drawn = .ok c) : Honest c := by
  cases cred with
  | passphrase p =>
    simp only [create, wrapKeyBlock] at h
    split at h
    · cases h
      rfl
    · cases h
  | key k =>
    cases h
    rfl

theorem rekey (hs : s.Inv) (hsound : h.Sound) (hstage : s.Stage h h.gate) (cred : Option Credential)
    (params : Argon2Params) (dek drawn : Bytes) :
    (s.up (State.rekey h t cred params dek drawn)).Inv := by
  unfold State.rekey
  split
  · exact hs.move hsound hstage (fun _ hc => by cases hc) (fun _ hb => by cases hb)
  · split
    · rename_i c hcreate
      refine hs.move hsound hstage ?_ (fun _ hb => by cases hb)
      rintro c' ⟨⟩
      exact create_honest hcreate
    · exact hs.answer hsound hstage _

/-- A derivation does not wrap the generation around. -/
theorem rewrap_generation {b : KeyBlock} (h : c.rewrap cred params drawn = .ok b) : b.generation ≠ 0 := by
  have hgeneration : b.generation = c.keyBlock.generation + 1 ∧
      c.keyBlock.generation ≠ .ofNat (2 ^ 64 - 1) := by
    unfold PageCodec.rewrap at h
    split at h
    · cases h
    · rename_i hmax
      unfold wrapKeyBlock at h
      cases cred with
      | passphrase p =>
        dsimp only at h
        split at h
        · cases h
          exact ⟨rfl, hmax⟩
        · cases h
      | key k =>
        cases h
        exact ⟨rfl, hmax⟩
  intro hzero
  refine hgeneration.2 ?_
  rw [hgeneration.1] at hzero
  have hcancel : c.keyBlock.generation + 1 - 1 = 0 - 1 := by rw [hzero]
  rw [UInt64.add_sub_cancel] at hcancel
  rw [hcancel]
  rfl

theorem rewrap (hs : s.Inv) (hsound : h.Sound) (hstage : s.Stage h h.gate)
    (hstep : s.rewrap h t drawn = some s') : s'.Inv := by
  unfold State.rewrap at hstep
  split at hstep
  · obtain ⟨c, -, rfl⟩ := Option.map_eq_some_iff.mp hstep
    split
    · rename_i block hblock
      refine hs.move hsound hstage (fun _ hc => by cases hc) ?_
      rintro b ⟨⟩
      exact rewrap_generation hblock
    · exact hs.answer hsound hstage _
  · cases hstep

theorem acquire (hs : s.Inv) (hsound : h.Sound) (hstage : s.Stage h h.gate)
    (hstep : s.acquire h t = some s') : s'.Inv := by
  unfold State.acquire at hstep
  split at hstep
  · rename_i block hderived
    cases hstep
    exact hs.tryAcquire hsound hstage fun hshows => ⟨hshows, hsound.derived t block hderived⟩
  · rename_i target hcreated
    cases hstep
    split
    · exact hs.answer hsound hstage _
    · refine hs.tryAcquire hsound hstage fun hshows => ⟨hshows, ?_⟩
      rintro c ⟨⟩
      exact hsound.created t c hcreated
  · cases hstep

theorem refuse (hs : s.Inv) (hsound : h.Sound) (hstage : s.Stage h h.gate) {e : SqlState}
    (hstep : s.refuse h t e = some s') : s'.Inv := by
  unfold State.refuse at hstep
  split at hstep
  · cases hstep
    exact hs.answer hsound hstage _
  · cases hstep
    exact hs.answer hsound hstage _
  · cases hstep
    exact hs.answer hsound hstage _
  · rename_i hgate
    rw [hgate] at hstage
    split at hstep
    · cases hstep
      exact hs.release hsound hstage.1 _
    · cases hstep
  · rename_i hgate
    rw [hgate] at hstage
    split at hstep
    · cases hstep
      exact hs.release hsound hstage _
    · cases hstep
  · cases hstep

/-! ## Commits -/

theorem dek_eq (hsound : h.Sound) : h.pageCodec.map PageCodec.dek = h.keyBlock.map KeyBlock.dek := by
  cases hc : h.pageCodec with
  | none => rw [Handle.keyBlock, hc]; rfl
  | some c =>
    rw [Handle.keyBlock, hc, Option.map_some, Option.map_some, Option.map_some]
    exact congrArg some (hsound.honest hc).symm

theorem writePage (hs : s.Inv) (hsound : h.Sound) (hstage : s.Stage h h.gate)
    (hprocess : s.process = .up h) {n : ℕ} (hstep : s.writePage h t n = some s') :
    s'.Inv := by
  unfold State.writePage at hstep
  split at hstep
  · rename_i hgate
    split at hstep
    · rename_i hwhere
      cases hstep
      rw [hgate] at hstage
      have hshows : s.file.Shows h.keyBlock := hstage
      have hn : isDataPage s.file.encrypted n = true := by
        rw [hshows.selects.1, Handle.keyBlock, Option.isSome_map]
        exact hwhere.2
      rw [dek_eq hsound]
      refine ⟨hs.calm, fun f hf => ?_, ?_⟩
      · rcases List.mem_cons.mp hf with rfl | hf
        · exact holds_write hs.holds_file hshows hn
        · exact hs.holds_previous f hf
      · rw [hprocess]
        refine ⟨hsound, ?_⟩
        rw [hgate]
        exact shows_write hshows hn
    · cases hstep
  · cases hstep

theorem barrier (hs : s.Inv) (hsound : h.Sound) (hstage : s.Stage h h.gate)
    (hprocess : s.process = .up h) (hstep : s.barrier h t = some s') : s'.Inv := by
  unfold State.barrier at hstep
  split at hstep
  · rename_i hgate
    split at hstep
    · cases hstep
      rw [hgate] at hstage
      refine ⟨hs.calm, fun f hf => ?_, ?_⟩
      · rcases List.mem_cons.mp hf with rfl | hf
        · exact holds_sync hs.holds_file
        · exact hs.holds_previous f hf
      · rw [hprocess]
        refine ⟨hsound, ?_⟩
        rw [hgate]
        exact shows_sync hstage
    · cases hstep
  · cases hstep

/-! ## Writes of the thread that holds the gate -/

theorem newer_of_follows {b : KeyBlock} (h : c.follows b = true)
    (hb : b.generation ≠ 0) : c.keyBlock.generation < b.generation := by
  have heq : b.generation = c.keyBlock.generation + 1 := by simpa [PageCodec.follows] using h
  rw [heq] at hb ⊢
  rw [UInt64.lt_iff_toNat_lt, UInt64.toNat_add]
  have hne : (c.keyBlock.generation + 1).toNat ≠ 0 := fun hzero => hb (UInt64.toNat_inj.mp hzero)
  rw [UInt64.toNat_add] at hne
  have hlt := c.keyBlock.generation.toNat_lt
  have hone : (1 : UInt64).toNat = 1 := rfl
  rw [hone] at hne ⊢
  omega

theorem eq_of_mem {f g : File} {l : List File} (hl : l = []) (hf : f ∈ g :: l) : f = g := by
  rw [hl] at hf
  exact List.mem_singleton.mp hf

theorem stabilize (hs : s.Inv) (hsound : h.Sound) (hshows : s.file.Shows h.keyBlock)
    {block : KeyBlock} (hc : h.pageCodec = some c) (hdek : c.dek = block.dek)
    (hnewer : c.keyBlock.generation < block.generation) : (s.stabilize h t c block).Inv := by
  have hblock : h.keyBlock = some c.keyBlock := by rw [Handle.keyBlock, hc]; rfl
  rw [hblock] at hshows
  have hchanging : Changing s.file.sync c.keyBlock block :=
    ⟨clean_sync _, shows_sync hshows, by rw [← hdek]; exact (hsound.honest hc).symm, .inr hnewer⟩
  refine ⟨hs.calm, fun f hf => ?_, sound_gate hsound _, rfl, c.keyBlock, hblock, rfl, hchanging⟩
  obtain rfl := List.mem_singleton.mp hf
  exact Holds_mono ((clean_sync _).holds (shows_sync hshows)) fun o ho => by
    rw [List.mem_singleton.mp ho]
    exact List.mem_cons_of_mem _ (List.mem_singleton_self _)

theorem checkFollows (hs : s.Inv) (hsound : h.Sound) {block : KeyBlock}
    (hshows : s.file.Shows h.keyBlock) (hblock : block.generation ≠ 0) (hfits : Fitting h block) :
    (s.checkFollows h t block).Inv := by
  obtain ⟨c, hc, hdek⟩ := hfits
  simp only [State.checkFollows, hc]
  split
  · rename_i hfollows
    have hdek : c.dek = block.dek := hdek.resolve_right (by rw [hfollows]; decide)
    exact hs.stabilize hsound hshows hc hdek (newer_of_follows hfollows hblock)
  · exact hs.release hsound hshows _

theorem replace (hs : s.Inv) (hsound : h.Sound) {target : Target} (htarget : target.Honest)
    (count : ℕ) : (s.replace h t target count).Inv := by
  have hshows := shows_image (honest_target hsound htarget) count
  refine ⟨hs.calm, fun f hf => ?_, sound_gate hsound _, clean_image _ _, htarget, hshows⟩
  rcases List.mem_cons.mp hf with rfl | hf
  · exact Holds_mono ((clean_image _ _).holds hshows) fun o ho => by
      rw [List.mem_singleton.mp ho]
      exact List.mem_cons_self
  · exact Holds_mono (hs.holds f hf) fun o ho => List.mem_cons_of_mem _ ho

/-- A step of the thread that holds the gate keeps the invariant where it fits. -/
theorem advance (hs : s.Inv) (hsound : h.Sound) {g : Gated} (hstage : s.Stage h (some (t, g)))
    (hfits : ∀ block, g = .checking block → Fitting h block) (count : ℕ) :
    (s.advance h t count g).Inv := by
  cases g with
  | checking block => exact hs.checkFollows hsound hstage.1 hstage.2 (hfits block rfl)
  | stable block =>
    obtain ⟨hprevious, a, ha, hcandidates, hchanging⟩ := hstage
    refine ⟨hs.calm, fun f hf => ?_, sound_gate hsound _, hprevious, a, s.file, ha, hcandidates,
      hchanging, rfl, rfl⟩
    obtain rfl := eq_of_mem hprevious hf
    have hholds := hchanging.holds_first
    rwa [← hcandidates] at hholds
  | first block page =>
    obtain ⟨hprevious, a, f₀, ha, hcandidates, hchanging, hpage, hfile⟩ := hstage
    refine ⟨hs.calm, fun f hf => ?_, sound_gate hsound _, hprevious, a, f₀, ha, hcandidates,
      hchanging, hpage, congrArg File.sync hfile⟩
    obtain rfl := eq_of_mem hprevious hf
    exact holds_sync hs.holds_file
  | firstDurable block page =>
    obtain ⟨hprevious, a, f₀, ha, hcandidates, hchanging, hpage, hfile⟩ := hstage
    have hwrite : s.file.write (5 - page) (.keyBlock block) =
        (f₀.write f₀.first (.keyBlock block)).sync.write (5 - f₀.first) (.keyBlock block) := by
      rw [hfile, hpage]
    refine ⟨hs.calm, fun f hf => ?_, sound_gate hsound _, hprevious, a, f₀, ha, hcandidates,
      hchanging, hwrite⟩
    obtain rfl := eq_of_mem hprevious hf
    have hholds : File.Holds _ s.candidates := Holds_mono hchanging.holds_other fun o ho => by
      rw [List.mem_singleton.mp ho, hcandidates]
      exact List.mem_cons_self
    rwa [← hwrite] at hholds
  | other block =>
    obtain ⟨hprevious, a, f₀, ha, hcandidates, hchanging, hfile⟩ := hstage
    have hholds := hchanging.holds_other
    rw [← hfile] at hholds
    obtain ⟨o, ho, hshows⟩ := hholds.shows
    obtain rfl := List.mem_singleton.mp ho
    have hset := setKeyBlock_spec hsound ha hchanging.dek
    refine ⟨hs.calm, fun f hf => ?_, sound_release hset.1 t _, ?_⟩
    · obtain rfl := eq_of_mem hprevious hf
      exact holds_sync hholds
    · have hkey : ((h.setKeyBlock block).release t (.ok ())).keyBlock = some block := hset.2
      refine ⟨?_, ?_⟩
      · rw [hkey]
        exact (shows_sync hshows).selects
      · rw [hkey]
        exact (shows_sync hshows).isSealed
  | replacing target => exact hs.replace hsound hstage.2 count
  | replaced target =>
    obtain ⟨hclean, htarget, hshows⟩ := hstage
    refine ⟨hs.calm, fun f hf => ?_, sound_release (sound_install hsound htarget) t _, ?_⟩
    · obtain rfl := List.mem_singleton.mp hf
      exact hclean.holds hshows
    · have hkey : ((h.install target).release t (.ok ())).keyBlock =
          (h.target target).map PageCodec.keyBlock := keyBlock_install h target
      refine ⟨?_, ?_⟩
      · rw [hkey]
        exact hshows.selects
      · rw [hkey]
        exact hshows.isSealed
  | committing => exact hs.release hsound hstage _

/-- A step of a process that is up keeps the invariant where it fits. -/
theorem act (hs : s.Inv) (hprocess : s.process = .up h) {a : Action} (hfits : s.Fits a)
    (hstep : s.act h a = some s') : s'.Inv := by
  have hinv := hs.process
  rw [hprocess] at hinv
  obtain ⟨hsound, hstage⟩ := hinv
  cases a with
  | kill | powerLoss | openFile | repair => cases hstep
  | changeCredential t cred params =>
    exact hs.begin hsound hstage hstep (hs.changeCredential hsound hstage cred params)
  | rewrap t drawn => exact hs.rewrap hsound hstage hstep
  | rekey t cred params dek drawn =>
    simp only [State.act] at hstep
    split at hstep
    · cases hstep
      exact hs.rekey hsound hstage cred params dek drawn
    · cases hstep
  | compact t =>
    exact hs.begin hsound hstage hstep
      (hs.tryAcquire hsound hstage fun hshows => ⟨hshows, trivial⟩)
  | commit t =>
    simp only [State.act, State.commit] at hstep
    split at hstep
    · exact hs.begin hsound hstage hstep (hs.tryAcquire hsound hstage fun hshows => hshows)
    · cases hstep
  | acquire t => exact hs.acquire hsound hstage hstep
  | refuse t e => exact hs.refuse hsound hstage hstep
  | writePage t n => exact hs.writePage hsound hstage hprocess hstep
  | barrier t => exact hs.barrier hsound hstage hprocess hstep
  | advance t count =>
    simp only [State.act] at hstep
    split at hstep
    · rename_i t' g hgate
      split at hstep
      · rename_i ht
        subst ht
        cases hstep
        rw [hgate] at hstage
        refine hs.advance hsound hstage (fun block hg => ?_) count
        subst hg
        exact hfits h block hprocess hgate
      · cases hstep
    · cases hstep

/-- A step keeps the invariant where it fits. -/
theorem step {a : Action} (hs : s.Inv) (hfits : s.Fits a) (hstep : s.step a = some s') :
    s'.Inv := by
  unfold State.step at hstep
  split at hstep
  · cases hstep
    exact hs.kill
  · cases hstep
    exact hs.lose _ _
  · split at hstep
    · cases hstep
      exact hs.opened _ _
    · cases hstep
  · split at hstep
    · rename_i hprocess
      cases hstep
      exact hs.repaired hprocess
    · cases hstep
  · split at hstep
    · rename_i h hprocess
      exact hs.act hprocess hfits hstep
    · cases hstep

theorem created {codec : Option PageCodec} (h : ∀ c ∈ codec, Honest c) (count : ℕ) :
    (State.created codec count).Inv := by
  refine ⟨rfl, fun f hf => ?_, trivial⟩
  obtain rfl := List.mem_singleton.mp hf
  exact (clean_image _ _).holds (shows_image h count)

end Inv

/-! ## Calls that fail -/

/-- A call of a thread returns an error in this step. -/
def Refused (s s' : State) : Prop :=
  ∃ h h' t e, s.process = .up h ∧ s'.process = .up h' ∧ h'.threads t = .idle (some (.error e)) ∧
    h.threads t ≠ h'.threads t

/-- A step changes no file, or ends no call with an error. -/
def Quiet (s s' : State) (h : Handle) : Prop :=
  s'.file = s.file ∧ s'.previous = s.previous ∨ ∀ h', s'.process = .up h' → ∀ t e,
    h'.threads t = .idle (some (.error e)) → h.threads t = h'.threads t

variable {s' : State} {h' : Handle}

theorem quiet_same {s : State} {h : Handle} (hprocess : s'.process = .up h')
    (hthreads : h'.threads = h.threads) : Quiet s s' h := by
  refine .inr fun h₁ h₁p t e _ => ?_
  rw [hprocess] at h₁p
  cases h₁p
  rw [hthreads]

theorem quiet_release {s : State} {h : Handle} {t : ℕ}
    (hprocess : s'.process = .up (h'.release t (.ok ()))) (hthreads : h'.threads = h.threads) :
    Quiet s s' h := by
  refine .inr fun h₁ h₁p t' e he => ?_
  rw [hprocess] at h₁p
  cases h₁p
  have hupdate : (h'.release t (.ok ())).threads t' =
      if t' = t then .idle (some (.ok ())) else h'.threads t' := threads_move h' t t' _
  rw [hupdate] at he ⊢
  split at he
  · cases he
  · rename_i hne
    rw [if_neg hne, hthreads]

theorem threads_setKeyBlock (h : Handle) (b : KeyBlock) : (h.setKeyBlock b).threads = h.threads := by
  unfold Handle.setKeyBlock
  split <;> rfl

theorem threads_install (h : Handle) (target : Target) : (h.install target).threads = h.threads := by
  unfold Handle.install
  split <;> rfl

theorem quiet_advance (s : State) (h : Handle) (t count : ℕ) (g : Gated) :
    Quiet s (s.advance h t count g) h := by
  cases g with
  | checking block =>
    simp only [State.advance, State.checkFollows]
    split
    · exact .inl ⟨rfl, rfl⟩
    · split
      · exact quiet_same rfl rfl
      · exact .inl ⟨rfl, rfl⟩
  | stable block => exact quiet_same rfl rfl
  | first block page => exact quiet_same rfl rfl
  | firstDurable block page => exact quiet_same rfl rfl
  | other block => exact quiet_release rfl (threads_setKeyBlock h block)
  | replacing target => exact quiet_same rfl rfl
  | replaced target => exact quiet_release rfl (threads_install h target)
  | committing => exact .inl ⟨rfl, rfl⟩

theorem quiet_begin {s : State} {h : Handle} {t : ℕ} (hstep : s.begin h t h' = some s') :
    Quiet s s' h := by
  unfold State.begin at hstep
  split at hstep
  · cases hstep
    exact .inl ⟨rfl, rfl⟩
  · cases hstep

theorem quiet_act {s : State} {h : Handle} {a : Action} (hprocess : s.process = .up h)
    (hstep : s.act h a = some s') : Quiet s s' h := by
  cases a with
  | kill | powerLoss | openFile | repair => cases hstep
  | changeCredential t cred params => exact quiet_begin hstep
  | rewrap t drawn =>
    simp only [State.act, State.rewrap] at hstep
    split at hstep
    · obtain ⟨c, -, rfl⟩ := Option.map_eq_some_iff.mp hstep
      split
      · exact .inl ⟨rfl, rfl⟩
      · exact .inl ⟨rfl, rfl⟩
    · cases hstep
  | rekey t cred params dek drawn =>
    simp only [State.act] at hstep
    split at hstep
    · cases hstep
      exact .inl ⟨rfl, rfl⟩
    · cases hstep
  | compact t => exact quiet_begin hstep
  | commit t =>
    simp only [State.act, State.commit] at hstep
    split at hstep
    · exact quiet_begin hstep
    · cases hstep
  | acquire t =>
    simp only [State.act, State.acquire] at hstep
    split at hstep
    · cases hstep
      exact .inl ⟨rfl, rfl⟩
    · cases hstep
      exact .inl ⟨rfl, rfl⟩
    · cases hstep
  | refuse t e =>
    simp only [State.act, State.refuse] at hstep
    split at hstep
    · cases hstep
      exact .inl ⟨rfl, rfl⟩
    · cases hstep
      exact .inl ⟨rfl, rfl⟩
    · cases hstep
      exact .inl ⟨rfl, rfl⟩
    · split at hstep
      · cases hstep
        exact .inl ⟨rfl, rfl⟩
      · cases hstep
    · split at hstep
      · cases hstep
        exact .inl ⟨rfl, rfl⟩
      · cases hstep
    · cases hstep
  | writePage t n =>
    simp only [State.act, State.writePage] at hstep
    split at hstep
    · split at hstep
      · cases hstep
        exact quiet_same hprocess rfl
      · cases hstep
    · cases hstep
  | barrier t =>
    simp only [State.act, State.barrier] at hstep
    split at hstep
    · split at hstep
      · cases hstep
        exact quiet_same hprocess rfl
      · cases hstep
    · cases hstep
  | advance t count =>
    simp only [State.act] at hstep
    split at hstep
    · split at hstep
      · cases hstep
        exact quiet_advance s h t count _
      · cases hstep
    · cases hstep

/-- A call that fails leaves the file as it is. -/
theorem file_of_refused {s : State} {a : Action} (hstep : s.step a = some s')
    (h : Refused s s') : s'.file = s.file ∧ s'.previous = s.previous := by
  obtain ⟨h₀, h₁, t, e, hprocess, hprocess', he, hne⟩ := h
  have hact : s.act h₀ a = some s' := by
    unfold State.step at hstep
    rw [hprocess] at hstep
    split at hstep
    · cases hstep
      cases hprocess'
    · cases hstep
      cases hprocess'
    · cases hstep
    · cases hstep
    · exact hstep
  exact (quiet_act hprocess hact).resolve_right fun hquiet => hne (hquiet h₁ hprocess' t e he)

end State

open State

/-! ## Runs -/

/-- In a run in which a `write_key_block` begins only where its block fits the storage, no step
panics, a file that a power loss may leave opens with exactly one credential, one that the calls so
far allow, to the key its pages are sealed under, and a call that fails leaves the file as it is. -/
theorem opensBy_of_run (codec : Option PageCodec) (count : ℕ) (actions : List Action) (s : State)
    (hcodec : ∀ c ∈ codec, ∃ cred params dek drawn, create cred params dek drawn = .ok c)
    (hmeets : Runs.Meets State.step Fits (created codec count) actions)
    (hrun : Runs.run State.step (created codec count) actions = some s) :
    s.panicked = false ∧
      (∀ f, s.Survives f → ∃ o ∈ s.candidates, OpensBy f (o.map KeyBlock.credential)) ∧
      ∀ a s', s.step a = some s' → Refused s s' → s'.file = s.file ∧ s'.previous = s.previous := by
  have hhonest : ∀ c ∈ codec, Honest c := by
    intro c hc
    obtain ⟨cred, params, dek, drawn, hcreate⟩ := hcodec c hc
    exact Inv.create_honest hcreate
  have hinv : s.Inv := Runs.run_invariant_meets
    (fun s a s' hs hfits hstep => hs.step hfits hstep) (Inv.created hhonest count) hmeets hrun
  refine ⟨hinv.calm, fun f hf => ?_, fun a s' hstep => file_of_refused hstep⟩
  obtain ⟨g, hg, k, rfl⟩ := hf
  obtain ⟨o, ho, hshows⟩ := (hinv.holds g hg).pick k
  exact ⟨o, ho, hshows.opensBy⟩

/-- A file made for one host key, and a change to another. -/
def hostKeyed : PageCodec := ⟨[10], ⟨1, .key [1], none, [], [10]⟩⟩

def changeLost : List Action :=
  [.openFile (some (.key [1])) false, .changeCredential 1 (.key [2]) ⟨65536, 3, 4⟩, .rewrap 1 [7],
    .acquire 1, .advance 1 0, .advance 1 0, .powerLoss 0 fun _ => 1]

/-- A power loss while the first copy is written. -/
theorem opensBy_of_run_powerLoss : ∃ s, Runs.run State.step (created (some hostKeyed) 5)
    changeLost = some s ∧ s.candidates = [some ⟨2, .key [2], none, [7], [10]⟩] ∧
      ∀ f, s.Survives f → ∃ o ∈ s.candidates, OpensBy f (o.map KeyBlock.credential) := by
  have hcodec : ∀ c ∈ some hostKeyed, ∃ cred params dek drawn,
      create cred params dek drawn = .ok c := by
    rintro c ⟨⟩
    exact ⟨.key [1], ⟨65536, 3, 4⟩, [10], [], rfl⟩
  have hmeets : Runs.Meets State.step Fits (created (some hostKeyed) 5) changeLost := by
    refine .cons trivial rfl (.cons trivial rfl (.cons trivial rfl (.cons trivial rfl
      (.cons ?_ rfl (.cons ?_ rfl (.cons trivial rfl .nil))))))
    · intro h block hprocess hgate
      cases hprocess
      cases hgate
      exact ⟨hostKeyed, rfl, .inl rfl⟩
    · intro h block hprocess hgate
      cases hprocess
      cases hgate
  exact ⟨_, rfl, rfl, (opensBy_of_run _ _ _ _ hcodec hmeets rfl).2.1⟩

/-- A change that derives its block before a rekey and writes it after. -/
def rekeyRace (target : Option Credential) : List Action :=
  [.openFile (some (.key [1])) false, .changeCredential 1 (.key [2]) ⟨65536, 3, 4⟩, .rewrap 1 [7],
    .rekey 2 target ⟨65536, 3, 4⟩ [20] [8], .acquire 2, .advance 2 5, .advance 2 0, .acquire 1,
    .advance 1 0, .advance 1 0, .advance 1 0, .advance 1 0, .advance 1 0]

/-- After it no credential opens the file to the key of its pages, and both calls reported success;
where the rekey makes the file plaintext, the change panics. -/
theorem rekeyRace_unlocks_nothing :
    (∃ s f, Runs.run State.step (created (some hostKeyed) 5) (rekeyRace (some (.key [3]))) =
      some s ∧ s.Survives f ∧ ∀ cred, ¬ OpensBy f cred) ∧
    ∃ s, Runs.run State.step (created (some hostKeyed) 5) ((rekeyRace none).take 9) = some s ∧
      s.panicked = true := by
  refine ⟨⟨_, _, rfl, ⟨_, List.mem_cons_self, fun _ => 0, rfl⟩, fun cred h => ?_⟩, _, rfl, rfl⟩
  have hpage := h.unlocks (some (.key [2])) (some ⟨[10], ⟨2, .key [2], none, [7], [10]⟩⟩) rfl 0 rfl
  rcases hpage with hpage | hpage
  · cases hpage
  · cases hpage

end Jed.Crypto
