import Jed.Crypto.File

/-!
# Threads on an encrypted file

`change_credential`, `rekey`, compaction and commits of one process (`shared.rs`), as far as they
touch the key block and the data key, and the crashes between their steps. A key derivation and the
read of the codec before it are steps of their own, since neither holds the writer gate.
-/

namespace Jed.Crypto

/-- What a rewrite of the file installs: the codec it had, or another one. -/
inductive Target where
  | same
  | fresh (codec : Option PageCodec)

/-- Where a thread stands that does not hold the writer gate: between calls, with the answer of the
last one; in `change_credential` with the codec it read, or the block it derived; in `rekey` with
the codec it created. -/
inductive Local where
  | idle (answer : Option (Except SqlState Unit))
  | changing (codec : ℕ) (cred : Credential) (params : Argon2Params)
  | derived (block : KeyBlock)
  | created (target : Option PageCodec)
  | holding

/-- Where the thread stands that holds the writer gate: in `write_key_block`, in a rewrite of the file
or in a commit. -/
inductive Gated where
  | checking (block : KeyBlock)
  | stable (block : KeyBlock)
  | first (block : KeyBlock) (page : ℕ)
  | firstDurable (block : KeyBlock) (page : ℕ)
  | other (block : KeyBlock)
  | replacing (target : Target)
  | replaced (target : Target)
  | committing

/-- An open database: its codecs, shared by the threads that read them, the one its storage has, and
the thread that holds the writer gate. -/
structure Handle where
  readOnly : Bool
  codecs : List PageCodec
  codec : Option ℕ
  gate : Option (ℕ × Gated)
  threads : ℕ → Local

/-- Where an open stands that repairs the pair of copies. -/
inductive Repair where
  | start
  | stable
  | written

inductive Process where
  | down
  | repairing (codec : PageCodec) (stage : Repair)
  | up (h : Handle)

/-- The file, what it replaced as long as its directory is not synced, and the process. The candidates
are the key blocks, the newest first, that the calls so far allow the file to open by: that of the
last call that reported success, and those of the later ones that a crash or the present time found
at work; a power loss leaves the one that the file opens by then. -/
structure State where
  file : File
  previous : List File
  process : Process
  candidates : List (Option KeyBlock)
  panicked : Bool

inductive Action where
  | kill
  | powerLoss (file : ℕ) (pick : ℕ → ℕ)
  | openFile (credential : Option Credential) (readOnly : Bool)
  | repair
  | changeCredential (t : ℕ) (cred : Credential) (params : Argon2Params)
  | rewrap (t : ℕ) (drawn : Bytes)
  | rekey (t : ℕ) (cred : Option Credential) (params : Argon2Params) (dek drawn : Bytes)
  | compact (t : ℕ)
  | commit (t : ℕ)
  | acquire (t : ℕ)
  | refuse (t : ℕ) (e : SqlState)
  | writePage (t n : ℕ)
  | barrier (t : ℕ)
  | advance (t count : ℕ)

namespace Handle

/-- The codec of the storage. -/
def pageCodec (h : Handle) : Option PageCodec := h.codec.bind fun r => h.codecs[r]?

/-- The key block of the storage's codec. -/
def keyBlock (h : Handle) : Option KeyBlock := h.pageCodec.map PageCodec.keyBlock

def move (h : Handle) (t : ℕ) (l : Local) : Handle :=
  { h with threads := Function.update h.threads t l }

/-- The call of a thread returns. -/
def answer (h : Handle) (t : ℕ) (r : Except SqlState Unit) : Handle := h.move t (.idle (some r))

/-- The call of the thread that holds the gate returns. -/
def release (h : Handle) (t : ℕ) (r : Except SqlState Unit) : Handle :=
  { h.answer t r with gate := none }

/-- `try_acquire_local_writer`. -/
def tryAcquire (h : Handle) (t : ℕ) (g : Gated) : Handle :=
  match h.gate with
  | none => { h.move t .holding with gate := some (t, g) }
  | some _ => h.answer t (.error .objectInUse)

/-- The next stage of the thread that holds the gate. -/
def stage (h : Handle) (t : ℕ) (g : Gated) : Handle := { h with gate := some (t, g) }

/-- `set_key_block` of the storage's codec. -/
def setKeyBlock (h : Handle) (block : KeyBlock) : Handle :=
  match h.codec with
  | none => h
  | some r => { h with codecs := h.codecs.modify r fun c => { c with keyBlock := block } }

def target (h : Handle) : Target → Option PageCodec
  | .same => h.pageCodec
  | .fresh codec => codec

/-- The storage's paging is replaced. -/
def install (h : Handle) : Target → Handle
  | .same => h
  | .fresh none => { h with codec := none }
  | .fresh (some c) => { h with codecs := h.codecs ++ [c], codec := some h.codecs.length }

/-- A handle just opened. -/
def opened (readOnly : Bool) (codec : Option PageCodec) : Handle where
  readOnly := readOnly
  codecs := codec.toList
  codec := codec.map fun _ => 0
  gate := none
  threads _ := .idle none

end Handle

namespace State

def up (s : State) (h : Handle) : State := { s with process := .up h }

/-- The file opens by this block as it reads now. -/
def opensNow (f : File) : Option KeyBlock → Bool
  | none => !f.encrypted
  | some b => f.encrypted && decide (selectKeyBlock (f.read 2) (f.read 3) = .ok b)

/-- A power loss: of the file or one it replaced, whatever its cells leave. -/
def lose (s : State) (i : ℕ) (k : ℕ → ℕ) : State :=
  let f := ((s.file :: s.previous).getD i s.file).pick k
  { s with file := f, previous := [], process := .down,
           candidates := s.candidates.filter (opensNow f) }

/-- `open`: a read-only one leaves the pair of copies as it is. -/
def opened (s : State) (cred : Option Credential) (readOnly : Bool) : State :=
  match unlockPager s.file cred with
  | .error _ => s
  | .ok none => s.up (.opened readOnly none)
  | .ok (some codec) =>
    if readOnly || decide (s.file.read 2 = s.file.read 3) then s.up (.opened readOnly (some codec))
    else { s with process := .repairing codec .start }

/-- `repair_key_block`. -/
def repaired (s : State) (codec : PageCodec) : Repair → State
  | .start => { s with file := s.file.sync, process := .repairing codec .stable }
  | .stable =>
    { s with file := s.file.write s.file.first (.keyBlock codec.keyBlock),
             process := .repairing codec .written }
  | .written => { s with file := s.file.sync }.up (.opened false (some codec))

/-- `write_key_block` after its check: the barrier before the first write of a key block. -/
def stabilize (s : State) (h : Handle) (t : ℕ) (c : PageCodec) (block : KeyBlock) : State :=
  { s with file := s.file.sync, previous := [], candidates := [some block, some c.keyBlock],
           process := .up (h.stage t (.stable block)) }

/-- `write_key_block` up to the barrier. -/
def checkFollows (s : State) (h : Handle) (t : ℕ) (block : KeyBlock) : State :=
  match h.pageCodec with
  | none => { s with panicked := true, process := .down }
  | some c =>
    if c.follows block then s.stabilize h t c block
    else s.up (h.release t (.error .objectInUse))

/-- `rewrite_file`: the new image is renamed over the file. -/
def replace (s : State) (h : Handle) (t : ℕ) (target : Target) (count : ℕ) : State :=
  { s with file := .image (h.target target) count, previous := s.file :: s.previous,
           candidates := (h.target target).map PageCodec.keyBlock :: s.candidates,
           process := .up (h.stage t (.replaced target)) }

/-- The next step of the thread that holds the gate. -/
def advance (s : State) (h : Handle) (t count : ℕ) : Gated → State
  | .checking block => s.checkFollows h t block
  | .stable block =>
    { s with file := s.file.write s.file.first (.keyBlock block) }.up
      (h.stage t (.first block s.file.first))
  | .first block page => { s with file := s.file.sync }.up (h.stage t (.firstDurable block page))
  | .firstDurable block page =>
    { s with file := s.file.write (5 - page) (.keyBlock block) }.up (h.stage t (.other block))
  | .other block =>
    { s with file := s.file.sync, candidates := [some block] }.up
      ((h.setKeyBlock block).release t (.ok ()))
  | .replacing target => s.replace h t target count
  | .replaced target =>
    { s with previous := [], candidates := [(h.target target).map PageCodec.keyBlock] }.up
      ((h.install target).release t (.ok ()))
  | .committing => s.up (h.release t (.ok ()))

/-- A call that stops before it touches the file: for a limit, a reader, or an error below it. -/
def refuse (s : State) (h : Handle) (t : ℕ) (e : SqlState) : Option State :=
  match h.threads t, h.gate with
  | .changing _ _ _, _ => some (s.up (h.answer t (.error e)))
  | .derived _, _ => some (s.up (h.answer t (.error e)))
  | .created _, _ => some (s.up (h.answer t (.error e)))
  | .holding, some (t', .replacing _) => if t' = t then some (s.up (h.release t (.error e))) else none
  | .holding, some (t', .committing) => if t' = t then some (s.up (h.release t (.error e))) else none
  | _, _ => none

/-- A call that a thread begins between calls. -/
def begin (s : State) (h : Handle) (t : ℕ) (h' : Handle) : Option State :=
  match h.threads t with
  | .idle _ => some (s.up (if h.readOnly then h.answer t (.error .readOnlySqlTransaction) else h'))
  | _ => none

/-- `change_credential` up to the read of the codec. -/
def changeCredential (h : Handle) (t : ℕ) (cred : Credential) (params : Argon2Params) : Handle :=
  match h.codec with
  | none => h.answer t (.error .credentialNotApplicable)
  | some r => h.move t (.changing r cred params)

/-- `rekey` up to the codec it creates; the check for a read-only handle comes after it. -/
def rekey (h : Handle) (t : ℕ) (cred : Option Credential) (params : Argon2Params) (dek drawn : Bytes) :
    Handle :=
  match cred with
  | none => h.move t (.created none)
  | some cred =>
    match create cred params dek drawn with
    | .ok c => h.move t (.created (some c))
    | .error e => h.answer t (.error e)

/-- The derivation in `change_credential`, from the key block its codec has then. -/
def rewrap (s : State) (h : Handle) (t : ℕ) (drawn : Bytes) : Option State :=
  match h.threads t with
  | .changing r cred params =>
    (h.codecs[r]?).map fun c =>
      match c.rewrap cred params drawn with
      | .ok block => s.up (h.move t (.derived block))
      | .error e => s.up (h.answer t (.error e))
  | _ => none

/-- A call takes the writer gate. -/
def acquire (s : State) (h : Handle) (t : ℕ) : Option State :=
  match h.threads t with
  | .derived block => some (s.up (h.tryAcquire t (.checking block)))
  | .created target =>
    some (s.up (if h.readOnly then h.answer t (.error .readOnlySqlTransaction)
      else h.tryAcquire t (.replacing (.fresh target))))
  | _ => none

/-- A commit waits for the gate. -/
def commit (s : State) (h : Handle) (t : ℕ) : Option State :=
  match h.gate with
  | none => s.begin h t (h.tryAcquire t .committing)
  | some _ => none

/-- A commit writes a page under the storage's key, or syncs the file. -/
def writePage (s : State) (h : Handle) (t n : ℕ) : Option State :=
  match h.gate with
  | some (t', .committing) =>
    if t' = t ∧ isDataPage h.pageCodec.isSome n then
      some { s with file := s.file.write n (.page (h.pageCodec.map PageCodec.dek)) }
    else none
  | _ => none

def barrier (s : State) (h : Handle) (t : ℕ) : Option State :=
  match h.gate with
  | some (t', .committing) => if t' = t then some { s with file := s.file.sync } else none
  | _ => none

/-- A step of a process that is up. -/
def act (s : State) (h : Handle) : Action → Option State
  | .changeCredential t cred params => s.begin h t (changeCredential h t cred params)
  | .rewrap t drawn => s.rewrap h t drawn
  | .rekey t cred params dek drawn =>
    match h.threads t with
    | .idle _ => some (s.up (rekey h t cred params dek drawn))
    | _ => none
  | .compact t => s.begin h t (h.tryAcquire t (.replacing .same))
  | .commit t => s.commit h t
  | .acquire t => s.acquire h t
  | .refuse t e => s.refuse h t e
  | .writePage t n => s.writePage h t n
  | .barrier t => s.barrier h t
  | .advance t count =>
    match h.gate with
    | some (t', g) => if t' = t then some (s.advance h t count g) else none
    | none => none
  | _ => none

/-- One step. -/
def step (s : State) : Action → Option State
  | .kill => some { s with process := .down }
  | .powerLoss i k => some (s.lose i k)
  | .openFile cred readOnly =>
    match s.process with
    | .down => some (s.opened cred readOnly)
    | _ => none
  | .repair =>
    match s.process with
    | .repairing codec stage => some (s.repaired codec stage)
    | _ => none
  | action =>
    match s.process with
    | .up h => s.act h action
    | _ => none

/-- A file just created, with no process. -/
def created (codec : Option PageCodec) (count : ℕ) : State where
  file := .image codec count
  previous := []
  process := .down
  candidates := [codec.map PageCodec.keyBlock]
  panicked := false

/-- The storage has the data key that the block wraps, or the block does not follow its copy. -/
def Fitting (h : Handle) (block : KeyBlock) : Prop :=
  ∃ c, h.pageCodec = some c ∧ (c.dek = block.dek ∨ c.follows block = false)

/-- A `write_key_block` begins only where its block fits the storage. -/
def Fits (s : State) : Action → Prop
  | .advance t _ => ∀ h block, s.process = .up h → h.gate = some (t, .checking block) → Fitting h block
  | _ => True

/-- A file that the disk may hold after a power loss now. -/
def Survives (s : State) (f : File) : Prop := ∃ g ∈ s.file :: s.previous, ∃ k, f = g.pick k

end State

end Jed.Crypto
