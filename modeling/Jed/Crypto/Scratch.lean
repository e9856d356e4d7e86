import Jed.Bytes
import Jed.Lib.GrowFile
import Jed.Lib.Lockstep

/-!
# Sealed scratch files

`SealedSpillFile` of `crypto.rs`: a scratch file in sealed blocks, one of them cached in plaintext. The
cipher, the nonces drawn and the file under it are ideal; what was sealed is logged.
-/

namespace Jed.Crypto

open Jed.GrowFile

/-- `SCRATCH_BLOCK`. -/
def scratchBlock : ℕ := 4096

/-- `NONCE_LEN`. -/
def nonceLen : ℕ := 24

/-- The length of a tag. -/
def tagLen : ℕ := 16

/-- `SCRATCH_STORED`. -/
def scratchStored : ℕ := scratchBlock + (nonceLen + tagLen)

/-- `SealedSpillFile::ad`: a block's associated data, which binds the file, the block and its write
    counter. -/
structure Ad where
  id : Bytes
  ordinal : ℕ
  counter : ℕ
  deriving DecidableEq

/-- `XaesKey`, under the file's key: a sealed block opens to what was sealed. -/
structure Cipher where
  seal_ : Bytes → Ad → Bytes → Bytes × Bytes
  open_ : Bytes → Bytes → Ad → Bytes → Option Bytes
  length_text : ∀ nonce ad block, (seal_ nonce ad block).1.length = block.length
  length_tag : ∀ nonce ad block, (seal_ nonce ad block).2.length = tagLen
  open_seal : ∀ nonce ad block,
    open_ nonce (seal_ nonce ad block).1 ad (seal_ nonce ad block).2 = some block

/-- The cipher that hides nothing opens to what was sealed. -/
instance : Inhabited Cipher where
  default :=
    { seal_ := fun _ _ block => (block, List.replicate tagLen 0)
      open_ := fun _ text _ _ => some text
      length_text := fun _ _ _ => rfl
      length_tag := fun _ _ _ => List.length_replicate
      open_seal := fun _ _ _ => rfl }

/-- What a scratch file is made with: its cipher and id, and the nonces that it draws. -/
structure Scratch where
  cipher : Cipher
  id : Bytes
  nonce : ℕ → Bytes
  length_nonce : ∀ i, (nonce i).length = nonceLen

instance : Inhabited Scratch where
  default := ⟨default, [], fun _ => List.replicate nonceLen 0, fun _ => List.length_replicate⟩

/-- The failures of a scratch file. -/
inductive ScratchError where
  | unexpectedEof
  | authentication
  | stuck
  deriving DecidableEq

/-- `SealedSpillFile` and its `SealedState`: the file under it, the nonces drawn so far and the blocks
    sealed with them. -/
structure SealedSpillFile where
  inner : Bytes
  size : ℕ
  counters : List ℕ
  live : List Bool
  cached : Option (ℕ × Bytes)
  drawn : ℕ
  log : List (Ad × Bytes)

/-- `EncryptingSpillHost::create`. -/
def SealedSpillFile.created : SealedSpillFile := ⟨[], 0, [], [], none, 0, []⟩

/-- `vec![0u8; SCRATCH_BLOCK]`. -/
def zeros : Bytes := List.replicate scratchBlock 0

/-- A stored block: ciphertext, nonce and tag. -/
def sealBlock (env : Scratch) (nonce : Bytes) (ad : Ad) (block : Bytes) : Bytes :=
  (env.cipher.seal_ nonce ad block).1 ++ (nonce ++ (env.cipher.seal_ nonce ad block).2)

/-- A stored block opened. -/
def openBlock (env : Scratch) (ad : Ad) (stored : Bytes) : Option Bytes :=
  env.cipher.open_ ((stored.drop scratchBlock).take nonceLen) (stored.take scratchBlock) ad
    (stored.drop (scratchBlock + nonceLen))

namespace SealedSpillFile

variable (env : Scratch) (s : SealedSpillFile)

/-- `SealedSpillFile::ad`. -/
def ad (ordinal counter : ℕ) : Ad := ⟨env.id, ordinal, counter⟩

/-- `state.live.get(ordinal).copied().unwrap_or(false)`. -/
def isLive (ordinal : ℕ) : Bool := s.live.getD ordinal false

/-- The cached block, where it is this one. -/
def cachedAt (ordinal : ℕ) : Option Bytes :=
  match s.cached with
  | some (c, block) => if c = ordinal then some block else none
  | none => none

/-- The bytes stored for a block. -/
def region (ordinal : ℕ) : Bytes := read s.inner (ordinal * scratchStored) scratchStored

/-- A live block, read with `read_exact_at` and opened against its counter. -/
def openStored (ordinal : ℕ) : Except ScratchError Bytes :=
  match s.counters[ordinal]? with
  | none => .error .stuck
  | some counter =>
    if (s.region ordinal).length < scratchStored then .error .unexpectedEof
    else
      match openBlock env (ad env ordinal counter) (s.region ordinal) with
      | none => .error .authentication
      | some block => .ok block

/-- `SealedSpillFile::load`. -/
def load (ordinal : ℕ) : Except ScratchError Bytes :=
  match s.cachedAt ordinal with
  | some block => .ok block
  | none => if s.isLive ordinal then s.openStored env ordinal else .ok zeros

/-- The cached block sealed and stored at its next write counter. -/
def store (ordinal : ℕ) (block : Bytes) : SealedSpillFile :=
  let counters := pad 0 s.counters (ordinal + 1)
  let counter := counters.getD ordinal 0 + 1
  let stored := sealBlock env (env.nonce s.drawn) (ad env ordinal counter) block
  { s with
    inner := write 0 s.inner (ordinal * scratchStored) stored
    counters := counters.set ordinal counter
    live := (pad false s.live (ordinal + 1)).set ordinal true
    cached := none
    drawn := s.drawn + 1
    log := (ad env ordinal counter, block) :: s.log }

/-- `SealedSpillFile::flush_cached`. -/
def flushCached : SealedSpillFile :=
  match s.cached with
  | none => s
  | some (ordinal, block) => s.store env ordinal block

/-- The loop of `read_at`: `n` bytes from `pos` on. -/
def readLoop : ℕ → ℕ → ℕ → Except ScratchError Bytes
  | 0, _, n => if n = 0 then .ok [] else .error .stuck
  | fuel + 1, pos, n =>
    if n = 0 then .ok []
    else
      let within := pos % scratchBlock
      let take := min (scratchBlock - within) n
      match s.load env (pos / scratchBlock) with
      | .error e => .error e
      | .ok block =>
        match readLoop fuel (pos + take) (n - take) with
        | .error e => .error e
        | .ok rest => .ok (read block within take ++ rest)

/-- `SpillFile::read_at` into a buffer of `len`: the bytes read. -/
def readAt (offset len : ℕ) : Except ScratchError Bytes :=
  if offset ≥ s.size then .ok []
  else s.readLoop env (min len (s.size - offset)) offset (min len (s.size - offset))

/-- The block that a write of `take` bytes goes into, cached. -/
def prepare (ordinal take : ℕ) : Except ScratchError SealedSpillFile :=
  match s.cachedAt ordinal with
  | some _ => .ok s
  | none =>
    match if take = scratchBlock then .ok zeros else s.load env ordinal with
    | .error e => .error e
    | .ok block => .ok { s.flushCached env with cached := some (ordinal, block) }

/-- Bytes copied into the cached block. -/
def patchCached (within : ℕ) (bytes : Bytes) : SealedSpillFile :=
  { s with cached := s.cached.map fun c => (c.1, splice c.2 within bytes) }

end SealedSpillFile

open SealedSpillFile Jed.Runs

/-- The loop of `write_at`: what is left of the bytes, from `pos` on. -/
def writeLoop (env : Scratch) : ℕ → ℕ → Bytes → Run SealedSpillFile ScratchError Unit
  | 0, _, bytes => fun s => (if bytes = [] then .ok () else .error .stuck, s)
  | fuel + 1, pos, bytes => fun s =>
    if bytes = [] then (.ok (), s)
    else
      let within := pos % scratchBlock
      let take := min (scratchBlock - within) bytes.length
      match s.prepare env (pos / scratchBlock) take with
      | .error e => (.error e, s)
      | .ok s =>
        writeLoop env fuel (pos + take) (bytes.drop take) (s.patchCached within (bytes.take take))

attribute [grind =] writeLoop

/-- `SpillFile::write_at`. -/
def SealedSpillFile.writeAt (env : Scratch) (offset : ℕ) (bytes : Bytes) :
    Run SealedSpillFile ScratchError Unit :=
  fun s =>
    match writeLoop env bytes.length offset bytes s with
    | (.error e, s) => (.error e, s)
    | (.ok _, s) => (.ok (), { s with size := max s.size (offset + bytes.length) })

/-- The block that a truncation cuts, its tail zeroed and cached. -/
def cutBlock (env : Scratch) (n : ℕ) (s : SealedSpillFile) : Except ScratchError SealedSpillFile :=
  let within := n % scratchBlock
  let ordinal := n / scratchBlock
  if within = 0 then .ok s
  else
    match s.load env ordinal with
    | .error e => .error e
    | .ok block =>
      let block := splice block within (List.replicate (scratchBlock - within) 0)
      let s := if (s.cachedAt ordinal).isSome then s else s.flushCached env
      .ok { s with cached := some (ordinal, block) }

/-- The blocks from `blocks` on dropped. -/
def dropBlocks (blocks : ℕ) (s : SealedSpillFile) : SealedSpillFile :=
  { s with
    cached := s.cached.filter fun c => decide (c.1 < blocks)
    live := s.live.mapIdx fun i b => decide (i < blocks) && b
    inner := resize 0 s.inner (blocks * scratchStored) }

/-- `SpillFile::truncate`. -/
def SealedSpillFile.truncate (env : Scratch) (n : ℕ) :
    Run SealedSpillFile ScratchError Unit := fun s =>
  if n < s.size then
    match cutBlock env n s with
    | .error e => (.error e, s)
    | .ok s => (.ok (), { dropBlocks ((n + (scratchBlock - 1)) / scratchBlock) s with size := n })
  else (.ok (), { s with size := n })

/-- A call of `SpillFile`. -/
inductive Call where
  | readAt (offset len : ℕ)
  | writeAt (offset : ℕ) (bytes : Bytes)
  | truncate (n : ℕ)
  | size

/-- What a call gives back. -/
inductive Answer where
  | bytes (bs : Bytes)
  | done
  | size (n : ℕ)
  deriving DecidableEq

/-- A call of the sealed file. -/
def Call.run (env : Scratch) : Call → Run SealedSpillFile ScratchError Answer
  | .readAt offset len => fun s => ((s.readAt env offset len).map .bytes, s)
  | .writeAt offset bytes => fun s =>
    ((SealedSpillFile.writeAt env offset bytes s).1.map fun _ => .done,
      (SealedSpillFile.writeAt env offset bytes s).2)
  | .truncate n => fun s =>
    ((SealedSpillFile.truncate env n s).1.map fun _ => .done,
      (SealedSpillFile.truncate env n s).2)
  | .size => fun s => (.ok (.size s.size), s)

/-- The answers of a sealed file to a list of calls. -/
def answers (env : Scratch) : List Call → SealedSpillFile → List (Except ScratchError Answer)
  | [], _ => []
  | call :: calls, s => (call.run env s).1 :: answers env calls (call.run env s).2

/-- A call of a growable byte array. -/
def Call.plain : Call → Bytes → Answer × Bytes
  | .readAt offset len, f => (.bytes (read f offset len), f)
  | .writeAt offset bytes, f => (.done, write 0 f offset bytes)
  | .truncate n, f => (.done, resize 0 f n)
  | .size, f => (.size f.length, f)

/-- The answers of a growable byte array to a list of calls. -/
def plainAnswers : List Call → Bytes → List Answer
  | [], _ => []
  | call :: calls, f => (call.plain f).1 :: plainAnswers calls (call.plain f).2

/-- What the array is left as after a call that gave `r`: a read and a failed truncation leave it as it
    is, and a write that failed leaves a prefix of its bytes written within it. -/
def Call.Leaves : Call → Bytes → Except ScratchError Answer → Bytes → Prop
  | call, f, .ok a, f' => call.plain f = (a, f')
  | .writeAt offset bytes, f, .error _, f' =>
    ∃ k, (k = 0 ∨ offset + k ≤ f.length) ∧ f' = splice f offset (bytes.take k)
  | _, f, .error _, f' => f' = f

/-- The array after calls that gave these answers, the last first. -/
inductive Held : Bytes → List (Call × Except ScratchError Answer) → Prop where
  | created : Held [] []
  | call {f f' : Bytes} {given : List (Call × Except ScratchError Answer)} {call : Call}
      {r : Except ScratchError Answer} (h : Held f given) (hleaves : call.Leaves f r f') :
      Held f' ((call, r) :: given)

/-- Stored bytes that open only to what was sealed, as an ideal cipher has it. -/
def Authentic (env : Scratch) (log : List (Ad × Bytes)) (stored : Bytes) : Prop :=
  ∀ ad block, openBlock env ad stored = some block → (ad, block) ∈ log

/-- A sealed file after calls that gave these answers, the last first, its stored bytes replaced between
    them. -/
inductive Ran (env : Scratch) : SealedSpillFile → List (Call × Except ScratchError Answer) → Prop where
  | created : Ran env created []
  | call {s : SealedSpillFile} {given : List (Call × Except ScratchError Answer)} (h : Ran env s given)
      (call : Call) : Ran env (call.run env s).2 ((call, (call.run env s).1) :: given)
  | replaced {s : SealedSpillFile} {given : List (Call × Except ScratchError Answer)} {inner : Bytes}
      (h : Ran env s given) (hlength : inner.length = s.inner.length)
      (hauthentic : ∀ k, k * scratchStored + scratchStored ≤ inner.length →
        Authentic env s.log (read inner (k * scratchStored) scratchStored)) :
      Ran env { s with inner := inner } given

end Jed.Crypto
