import Jed.Txn.Snapshot

/-!
# Transaction blocks

The state of an open block (`executor/mod.rs:1394-1495`) and the statements of it: those that write, and
those that mark, release and restore savepoints (`executor/execute.rs:676-746`, `1077-1155`).
-/

namespace Jed.Txn

open PMap

/-- The databases that a statement can write to. -/
inductive Database where
  | main
  | temp
  | attached (name : Name)
  deriving DecidableEq

/-- What is marked beside the snapshots: which of them were written to, and the session's sequences. -/
structure Marks where
  mainDirty : Bool
  tempDirty : Bool
  attachDirty : Finset Name
  sessionSeq : List (Name × Int)
  sessionLastName : Option Name
  deriving DecidableEq

/-- The state that a savepoint marks: all that a statement of the block can change. -/
structure Marked (κ τ : Type) extends Marks where
  working : Snapshot κ τ
  tempWorking : Snapshot κ τ
  attachWorking : ByName (Snapshot κ τ)

/-- `SavepointFrame`. -/
structure SavepointFrame (κ τ : Type) where
  name : Name
  marked : Marked κ τ

/-- `ActiveTx`, with the session's sequences; the savepoints are oldest first. -/
structure ActiveTx (κ τ : Type) where
  writable : Bool
  failed : Bool
  current : Marked κ τ
  savepoints : List (SavepointFrame κ τ)

/-- What a statement of a block fails with. -/
inductive StmtError (ε : Type) where
  | inFailedSqlTransaction
  | readOnlySqlTransaction
  | invalidSavepointSpecification
  | statement
  | fault (f : Fault ε)
  deriving DecidableEq

variable {ε ρ κ τ χ : Type}

namespace Marked

/-- The trees that a state holds. -/
def trees (m : Marked κ τ) : List τ :=
  m.working.trees ++ (m.tempWorking.trees ++ m.attachWorking.flatMap (·.2.trees))

/-- The snapshot of a database; an attachment has one once it is written to. -/
def snap? (m : Marked κ τ) : Database → Option (Snapshot κ τ)
  | .main => some m.working
  | .temp => some m.tempWorking
  | .attached name => SortedMap.get name m.attachWorking

def setSnap (m : Marked κ τ) (s : Snapshot κ τ) : Database → Marked κ τ
  | .main => { m with working := s }
  | .temp => { m with tempWorking := s }
  | .attached name => { m with attachWorking := SortedMap.insert name s m.attachWorking }

def setDirty (m : Marked κ τ) : Database → Marked κ τ
  | .main => { m with mainDirty := true }
  | .temp => { m with tempDirty := true }
  | .attached name => { m with attachDirty := insert name m.attachDirty }

/-- `working_mut`, `temp_working_mut` and `attach_write_snap` (`engine.rs:494-525`): the state, once a
    database of it is to be written to. -/
def writeSnap (ops : TreeOps ε ρ τ χ) (attached : ByName (Snapshot κ τ)) (m : Marked κ τ) (h : χ)
    (d : Database) : Marked κ τ × χ :=
  match m.snap? d, d with
  | none, .attached name =>
    match SortedMap.get name attached with
    | none => (m, h)
    | some base => ((m.setSnap base d).setDirty d, ops.clone h base.trees)
  | _, _ => (m.setDirty d, h)

/-- A write to a database. One that has no snapshot panics. -/
def write (ops : TreeOps ε ρ τ χ) (attached : ByName (Snapshot κ τ)) (m : Marked κ τ) (h : χ)
    (d : Database) (w : Mutation ρ κ) : Except (Fault ε) Unit × Marked κ τ × χ :=
  let (m, h) := m.writeSnap ops attached h d
  match m.snap? d with
  | none => (.error .panic, m, h)
  | some s =>
    let (res, s, h) := w.apply ops s h
    (res, m.setSnap s d, h)

/-- Writes, up to the first that fails. -/
def runWrites (ops : TreeOps ε ρ τ χ) (attached : ByName (Snapshot κ τ)) :
    List (Database × Mutation ρ κ) → Marked κ τ → χ → Except (Fault ε) Unit × Marked κ τ × χ
  | [], m, h => (.ok (), m, h)
  | (d, w) :: ws, m, h =>
    match m.write ops attached h d w with
    | (.error f, m, h) => (.error f, m, h)
    | (.ok _, m, h) => runWrites ops attached ws m h

end Marked

/-- A statement: its writes, in order, whether it fails after them, and what its sequence calls leave to
    be flushed. -/
structure Statement (ρ κ : Type) where
  isWrite : Bool
  writes : List (Database × Mutation ρ κ)
  fails : Bool
  pendingSeq : List (Database × SequenceDef κ)
  pendingCurrval : List (Name × Int)
  pendingLastName : Option Name

/-- The session's part of `flush_pending_sequences`. -/
def Marked.flushSession (m : Marked κ τ) (stmt : Statement ρ κ) : Marked κ τ :=
  { m with
    sessionSeq := stmt.pendingCurrval.foldl (fun seq e => SortedMap.insert e.1 e.2 seq) m.sessionSeq
    sessionLastName := stmt.pendingLastName.or m.sessionLastName }

/-- `flush_pending_sequences` (`execute.rs:176-191`): each sequence goes to the database that has it. -/
def Statement.flushPendingSequences (ops : TreeOps ε ρ τ χ) (attached : ByName (Snapshot κ τ))
    (stmt : Statement ρ κ) (m : Marked κ τ) (h : χ) : Except (StmtError ε) Unit × Marked κ τ × χ :=
  match m.runWrites ops attached (stmt.pendingSeq.map fun e => (e.1, .putSequence e.2)) h with
  | (.error f, m, h) => (.error (.fault f), m, h)
  | (.ok _, m, h) => (.ok (), m.flushSession stmt, h)

/-- A statement, run on a state. -/
def Statement.run (ops : TreeOps ε ρ τ χ) (attached : ByName (Snapshot κ τ)) (stmt : Statement ρ κ)
    (m : Marked κ τ) (h : χ) : Except (StmtError ε) Unit × Marked κ τ × χ :=
  match m.runWrites ops attached stmt.writes h with
  | (.error f, m, h) => (.error (.fault f), m, h)
  | (.ok _, m, h) =>
    if stmt.fails then (.error .statement, m, h)
    else stmt.flushPendingSequences ops attached m h

namespace ActiveTx

/-- `mark_failed`. -/
def markFailed (tx : ActiveTx κ τ) : ActiveTx κ τ := { tx with failed := true }

/-- A statement in a block (`execute.rs:699-746`): any error aborts the block. -/
def execute (ops : TreeOps ε ρ τ χ) (attached : ByName (Snapshot κ τ)) (tx : ActiveTx κ τ) (h : χ)
    (stmt : Statement ρ κ) : Except (StmtError ε) Unit × ActiveTx κ τ × χ :=
  if tx.failed then (.error .inFailedSqlTransaction, tx, h)
  else if stmt.isWrite && !tx.writable then (.error .readOnlySqlTransaction, tx.markFailed, h)
  else
    let (res, m, h) := stmt.run ops attached tx.current h
    (res, { tx with current := m, failed := !res.isOk }, h)

/-- `find_savepoint`: the newest of that name. -/
def findSavepoint (tx : ActiveTx κ τ) (name : Name) : Option Nat :=
  (tx.savepoints.reverse.findIdx? fun f => f.name = name).map (tx.savepoints.length - 1 - ·)

/-- The trees that savepoints hold. -/
def frameTrees (frames : List (SavepointFrame κ τ)) : List τ := frames.flatMap (·.marked.trees)

/-- `SAVEPOINT`. -/
def define (ops : TreeOps ε ρ τ χ) (tx : ActiveTx κ τ) (h : χ) (name : Name) : ActiveTx κ τ × χ :=
  ({ tx with savepoints := tx.savepoints ++ [⟨name, tx.current⟩] }, ops.clone h tx.current.trees)

/-- `RELEASE` of the savepoint at `i`. -/
def release (ops : TreeOps ε ρ τ χ) (tx : ActiveTx κ τ) (h : χ) (i : Nat) : ActiveTx κ τ × χ :=
  ({ tx with savepoints := tx.savepoints.take i }, ops.drop h (frameTrees (tx.savepoints.drop i)))

/-- `ROLLBACK TO` the savepoint at `i`: it stays, and what it marks is cloned before the block's own
    state is dropped. -/
def rollbackTo (ops : TreeOps ε ρ τ χ) (tx : ActiveTx κ τ) (h : χ) (i : Nat) : ActiveTx κ τ × χ :=
  match tx.savepoints[i]? with
  | none => (tx, h)
  | some frame =>
    let h := ops.drop h (frameTrees (tx.savepoints.drop (i + 1)))
    let h := ops.clone h frame.marked.trees
    ({ tx with
      savepoints := tx.savepoints.take (i + 1)
      current := frame.marked
      failed := false }, ops.drop h tx.current.trees)

end ActiveTx

inductive SavepointOp where
  | define
  | release
  | rollbackTo
  deriving DecidableEq

/-- `savepoint_stmt`, in a block. -/
def ActiveTx.savepointStmt (ops : TreeOps ε ρ τ χ) (tx : ActiveTx κ τ) (h : χ) (op : SavepointOp)
    (name : Name) : Except (StmtError ε) Unit × ActiveTx κ τ × χ :=
  if tx.failed ∧ op ≠ .rollbackTo then (.error .inFailedSqlTransaction, tx, h)
  else
    match op with
    | .define => (.ok (), tx.define ops h name)
    | .release =>
      match tx.findSavepoint name with
      | none => (.error .invalidSavepointSpecification, tx.markFailed, h)
      | some i => (.ok (), tx.release ops h i)
    | .rollbackTo =>
      match tx.findSavepoint name with
      | none => (.error .invalidSavepointSpecification, tx.markFailed, h)
      | some i => (.ok (), tx.rollbackTo ops h i)

/-- What is done in a block. -/
inductive BlockStep (ρ κ : Type) where
  | statement (stmt : Statement ρ κ)
  | savepoint (op : SavepointOp) (name : Name)

def ActiveTx.step (ops : TreeOps ε ρ τ χ) (attached : ByName (Snapshot κ τ)) (tx : ActiveTx κ τ) (h : χ) :
    BlockStep ρ κ → Except (StmtError ε) Unit × ActiveTx κ τ × χ
  | .statement stmt => tx.execute ops attached h stmt
  | .savepoint op name => tx.savepointStmt ops h op name

/-- A run of a block, and what its statements returned. -/
def ActiveTx.run (ops : TreeOps ε ρ τ χ) (attached : ByName (Snapshot κ τ)) :
    List (BlockStep ρ κ) → ActiveTx κ τ → χ → List (Except (StmtError ε) Unit) × ActiveTx κ τ × χ
  | [], tx, h => ([], tx, h)
  | s :: steps, tx, h =>
    let (res, tx, h) := tx.step ops attached h s
    let (ress, tx, h) := ActiveTx.run ops attached steps tx h
    (res :: ress, tx, h)

/-- `ActiveTx::open`: the committed snapshots, cloned. -/
def ActiveTx.open (ops : TreeOps ε ρ τ χ) (writable : Bool) (committed temp : Snapshot κ τ)
    (seq : List (Name × Int)) (lastName : Option Name) (h : χ) : ActiveTx κ τ × χ :=
  (⟨writable, false, ⟨⟨false, false, ∅, seq, lastName⟩, committed, temp, []⟩, []⟩,
    ops.clone h (committed.trees ++ temp.trees))

end Jed.Txn
