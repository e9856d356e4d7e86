import Jed.Commit.Roots
import Jed.Value.Value

/-!
# Commit over every root

COMMIT of a session over a shared core (`Engine::commit_tx`, `executor/execute.rs:854-1045`, then
`Session::publish`, `shared.rs:4927-4986`): main, the session's temp domain, and attachments in
memory and in files, with every call that can fail. A call that fails is a value of the environment.
-/

namespace Jed.Commit

variable {σ κ ς : Type}

/-- What a commit asks of a snapshot: whether it changed since its base, what it holds, and the ON
    COMMIT actions of a temp snapshot (`apply_on_commit_actions`), with whether any acted. -/
structure Snapshots (σ κ : Type) where
  changedSince : σ → σ → Bool
  content : σ → κ
  onCommit : σ → Except Failure (Bool × σ)
  content_of_unchanged : ∀ {a b}, changedSince a b = false → content a = content b

/-- How a call to the storage fails. The meta is written before the sync that may fail (`shared.rs:1258-1266`,
    `file.rs:681-686`), so a file may hold the new snapshot all the same: reopening finds it. -/
structure StorageFault where
  error : Failure
  written : Bool

/-- What the environment answers at each point a commit can fail, and whether the publish stores the
    roots: it does not where a reader or a new role has the committed version already. -/
structure Environment where
  stale : Option Failure
  precheck : Option Failure
  stageTemp : Option Failure
  adoptTemp : Option Failure
  commitAttachment : String → Option StorageFault
  checkPids : Option Failure
  persist : Option StorageFault
  stored : Bool

/-- The published roots, and what the files hold. -/
structure Core (σ : Type) where
  main : σ
  attached : String → Option σ
  mainFile : σ
  files : String → Option σ

/-- A session: `committed`, `attached_committed`, `temp_committed`, and the sequence state behind
    `currval` and `lastval`. -/
structure Session (σ ς : Type) where
  core : Core σ
  committed : σ
  attached : String → Option σ
  temp : σ
  seq : ς

/-- `ActiveTx`: the working snapshots, which of them are dirty (the attachments in name order), and
    the sequence state it began with. -/
structure ActiveTx (σ ς : Type) where
  writable : Bool
  failed : Bool
  working : σ
  mainDirty : Bool
  tempWorking : σ
  tempDirty : Bool
  attachWorking : String → Option σ
  attachDirty : List String
  savedSeq : ς

/-- A transaction after the refinement: only what changed is dirty. -/
structure Refined (σ : Type) where
  working : σ
  mainDirty : Bool
  tempWorking : σ
  tempDirty : Bool
  attachWorking : String → Option σ
  dirty : List String

/-- Which databases are in files. -/
structure Placement where
  main : Bool
  attachment : String → Bool

namespace Session

/-- `restore_session_state`. -/
def restore (s : Session σ ς) (tx : ActiveTx σ ς) : Session σ ς := { s with seq := tx.savedSeq }

/-- The attachment changed since the session's root of it. -/
def attachChanged (s : Session σ ς) (D : Snapshots σ κ) (tx : ActiveTx σ ς) (name : String) :
    Bool :=
  match tx.attachWorking name, s.attached name with
  | some working, some base => D.changedSince working base
  | _, _ => false

/-- The refinement of the dirty domains (`execute.rs:893-898`). -/
def refine (s : Session σ ς) (D : Snapshots σ κ) (tx : ActiveTx σ ς) (acted : Bool)
    (tempWorking : σ) : Refined σ where
  working := tx.working
  mainDirty := tx.mainDirty && D.changedSince tx.working s.committed
  tempWorking := tempWorking
  tempDirty := (tx.tempDirty || acted) && D.changedSince tempWorking s.temp
  attachWorking := tx.attachWorking
  dirty := tx.attachDirty.filter (s.attachChanged D tx)

/-- The attachments, the ones in files last (`execute.rs:1010-1014`). -/
def order (place : Placement) (dirty : List String) : List String :=
  dirty.filter (fun name => !place.attachment name) ++ dirty.filter place.attachment

/-- The loop over the dirty attachments (`execute.rs:1015-1034`): the files, and the new roots. -/
def commitAttachments (env : Environment) (place : Placement) (working : String → Option σ) :
    List String → (String → Option σ) → (String → Option σ) →
      (String → Option σ) × Except Failure (String → Option σ)
  | [], files, attached => (files, .ok attached)
  | name :: names, files, attached =>
    match working name with
    | none => commitAttachments env place working names files attached
    | some ws =>
      match env.commitAttachment name with
      | some fault =>
        (if place.attachment name && fault.written then Function.update files name (some ws) else files,
          .error fault.error)
      | none =>
        commitAttachments env place working names
          (if place.attachment name then Function.update files name (some ws) else files)
          (Function.update attached name (some ws))

/-- How many durable databases a transaction modifies. -/
def durable (place : Placement) (r : Refined σ) : Nat :=
  (r.mainDirty && place.main).toNat + (r.dirty.filter place.attachment).length

/-- `commit_tx` from the budget precheck on (`execute.rs:904-1040`). -/
def commitRefined (s : Session σ ς) (env : Environment) (place : Placement) (tx : ActiveTx σ ς)
    (r : Refined σ) : Session σ ς × Except Failure Unit :=
  match if r.tempDirty || !r.dirty.isEmpty then env.precheck else none with
  | some e => (s.restore tx, .error e)
  | none =>
    if 1 < durable place r then
      (s, .error (.error ⟨.featureNotSupported,
        "a transaction may modify at most one durable database", none⟩))
    else
      match if r.tempDirty then env.stageTemp else none with
      | some e => (s, .error e)
      | none =>
        let s := if r.mainDirty then { s with committed := r.working } else s
        match if r.tempDirty then env.adoptTemp else none with
        | some e => (s, .error e)
        | none =>
          let s := { s with temp := r.tempWorking }
          match commitAttachments env place r.attachWorking (order place r.dirty) s.core.files
              s.attached with
          | (files, .error e) => ({ s with core := { s.core with files := files } }, .error e)
          | (files, .ok attached) =>
            ({ s with core := { s.core with files := files }, attached := attached }, .ok ())

/-- `Session::publish`. -/
def publish (s : Session σ ς) (env : Environment) (place : Placement) (mainChanged : Bool)
    (attachedChanged : Bool) : Session σ ς × Except Failure Unit :=
  if !mainChanged && !attachedChanged then (s, .ok ())
  else
    match env.checkPids with
    | some e => (s, .error e)
    | none =>
      if !mainChanged then ({ s with core := { s.core with attached := s.attached } }, .ok ())
      else
        match env.persist with
        | some fault =>
          let mainFile := if place.main && fault.written then s.committed else s.core.mainFile
          ({ s with core := { s.core with mainFile := mainFile } }, .error fault.error)
        | none =>
          let core := if place.main then { s.core with mainFile := s.committed } else s.core
          let core := { core with main := s.committed }
          if env.stored then ({ s with core := { core with attached := s.attached } }, .ok ())
          else ({ s with core := core, attached := core.attached }, .ok ())

/-- COMMIT (`end_block`, `shared.rs:4814-4850`, and the commit of an autocommit statement). -/
def commit (s : Session σ ς) (D : Snapshots σ κ) (env : Environment) (place : Placement)
    (tx : ActiveTx σ ς) : Session σ ς × Except Failure Unit :=
  match env.stale with
  | some e => (s.restore tx, .error e)
  | none =>
    if tx.failed || !tx.writable then (s.restore tx, .ok ())
    else
      match D.onCommit tx.tempWorking with
      | .error e => (s.restore tx, .error e)
      | .ok (acted, tempWorking) =>
        let r := s.refine D tx acted tempWorking
        match s.commitRefined env place tx r with
        | (s, .error e) => (s, .error e)
        | (s, .ok ()) => s.publish env place r.mainDirty (!r.dirty.isEmpty)

end Session

/-! ## Atomicity -/

/-- What is seen after a commit: main, the session's temp domain, the attachments, and the sequence
    state; and what the files hold. -/
structure View (κ ς : Type) where
  main : κ
  temp : κ
  attached : String → Option κ
  seq : ς
  mainFile : κ
  files : String → Option κ

def Session.view (s : Session σ ς) (D : Snapshots σ κ) : View κ ς where
  main := D.content s.core.main
  temp := D.content s.temp
  attached name := (s.core.attached name).map D.content
  seq := s.seq
  mainFile := D.content s.core.mainFile
  files name := (s.core.files name).map D.content

/-- An open transaction: the session stands on the published roots, what is not dirty is the base it
    was cloned from, and a dirty attachment has a working snapshot over its base. -/
structure Open (D : Snapshots σ κ) (s : Session σ ς) (tx : ActiveTx σ ς) : Prop where
  main : s.committed = s.core.main
  attached : s.attached = s.core.attached
  working : tx.mainDirty = false → D.content tx.working = D.content s.committed
  dirty : ∀ name ∈ tx.attachDirty, (tx.attachWorking name).isSome ∧ (s.attached name).isSome
  nodup : tx.attachDirty.Nodup

namespace Session

/-- The state before the transaction. -/
def before (s : Session σ ς) (D : Snapshots σ κ) (tx : ActiveTx σ ς) : View κ ς :=
  (s.restore tx).view D

/-- The roots of the attachments `names`, over others. -/
def rootsOf (working : String → Option σ) (names : List String) (base : String → Option σ) :
    String → Option σ := fun name => if name ∈ names then working name else base name

/-- The transaction's state: what it worked on, the temp snapshot after its ON COMMIT actions, and in
    files what it changed there. -/
def after (s : Session σ ς) (D : Snapshots σ κ) (place : Placement) (tx : ActiveTx σ ς)
    (r : Refined σ) : View κ ς where
  main := D.content tx.working
  temp := D.content r.tempWorking
  attached name := (rootsOf tx.attachWorking tx.attachDirty s.core.attached name).map D.content
  seq := s.seq
  mainFile := D.content (if r.mainDirty && place.main then r.working else s.core.mainFile)
  files name :=
    (rootsOf tx.attachWorking (r.dirty.filter place.attachment) s.core.files name).map D.content

/-- All or nothing: after an error the state is the one before the transaction, after a success it is
    the transaction's; COMMIT of a failed or read-only transaction is a rollback. -/
def Atomic (s : Session σ ς) (D : Snapshots σ κ) (place : Placement) (tx : ActiveTx σ ς) :
    Session σ ς × Except Failure Unit → Prop
  | (s', .error _) => s'.view D = s.before D tx
  | (s', .ok ()) =>
    if tx.failed || !tx.writable then s'.view D = s.before D tx
    else ∃ acted tempWorking, D.onCommit tx.tempWorking = .ok (acted, tempWorking) ∧
      s'.view D = s.after D place tx (s.refine D tx acted tempWorking)

/-! ## Where a commit fails -/

/-- The budget precheck, where it runs, passes. -/
def Passes (env : Environment) (r : Refined σ) : Prop :=
  (r.tempDirty || !r.dirty.isEmpty) = true → env.precheck = none

/-- A second durable database, or the temp domain's pages. -/
def FailsBeforeTemp (env : Environment) (place : Placement) (r : Refined σ) : Prop :=
  1 < durable place r ∨ r.tempDirty = true ∧ (env.stageTemp.isSome ∨ env.adoptTemp.isSome)

/-- An attachment's pages, or its file. -/
def FailsAttachment (env : Environment) (r : Refined σ) : Prop :=
  ∃ name ∈ r.dirty, (env.commitAttachment name).isSome

/-- The attachment whose commit fails, the first in their order, and how. -/
def failing (env : Environment) (names : List String) : Option (String × StorageFault) :=
  names.findSome? fun name => (env.commitAttachment name).map (name, ·)

/-- The file of the attachment holds its new snapshot though its commit fails. -/
def written (place : Placement) (fail : String × StorageFault) : Bool :=
  place.attachment fail.1 && fail.2.written

/-- A check that the process was not forked, or main's persist. -/
def FailsPublish (env : Environment) (r : Refined σ) : Prop :=
  (r.mainDirty = true ∨ r.dirty ≠ []) ∧
    (env.checkPids.isSome ∨ r.mainDirty = true ∧ env.persist.isSome)

/-- Nothing was done by the time of the failure that the failure does not undo, in the file of the call that
    fails either, and a commit that a reader or a new role published has changed no attachment. -/
structure Undone (s : Session σ ς) (D : Snapshots σ κ) (env : Environment) (place : Placement)
    (tx : ActiveTx σ ς) (r : Refined σ) : Prop where
  seq : FailsBeforeTemp env place r ∨ FailsAttachment env r ∨ FailsPublish env r →
    tx.savedSeq = s.seq
  temp : ¬FailsBeforeTemp env place r → FailsAttachment env r ∨ FailsPublish env r →
    D.content r.tempWorking = D.content s.temp
  attachmentFile : ¬FailsBeforeTemp env place r → ∀ fail, failing env (order place r.dirty) = some fail →
    written place fail = true →
      (r.attachWorking fail.1).map D.content = (s.core.files fail.1).map D.content
  mainFile : ¬FailsBeforeTemp env place r → ¬FailsAttachment env r → r.mainDirty = true →
    env.checkPids = none → ∀ fault, env.persist = some fault → (place.main && fault.written) = true →
      D.content r.working = D.content s.core.mainFile
  files : ¬FailsBeforeTemp env place r → ¬FailsAttachment env r → FailsPublish env r →
    ∀ name ∈ r.dirty, place.attachment name = true →
      (r.attachWorking name).map D.content = (s.core.files name).map D.content
  stored : ¬FailsBeforeTemp env place r → ¬FailsAttachment env r → ¬FailsPublish env r →
    r.mainDirty = true → env.stored = false → ∀ name ∈ r.dirty,
      (r.attachWorking name).map D.content = (s.core.attached name).map D.content

/-- Past the exits that restore the session, the commit has undone what it did. -/
def AllUndone (s : Session σ ς) (D : Snapshots σ κ) (env : Environment) (place : Placement)
    (tx : ActiveTx σ ς) : Prop :=
  ∀ acted tempWorking, env.stale = none → tx.failed = false → tx.writable = true →
    D.onCommit tx.tempWorking = .ok (acted, tempWorking) →
    Passes env (s.refine D tx acted tempWorking) →
    s.Undone D env place tx (s.refine D tx acted tempWorking)

/-! ## The attachments -/

variable {env : Environment} {place : Placement} {working : String → Option σ}

theorem rootsOf_nil (base : String → Option σ) : rootsOf working [] base = base := by
  funext name
  exact if_neg List.not_mem_nil

variable {names : List String} {base : String → Option σ} {name : String}

theorem rootsOf_cons {ws : σ} (hws : working name = some ws) :
    rootsOf working names (Function.update base name (some ws)) =
      rootsOf working (name :: names) base := by
  funext other
  unfold rootsOf
  by_cases hmem : other ∈ names
  · rw [if_pos hmem, if_pos (List.mem_cons_of_mem name hmem)]
  · by_cases hname : other = name
    · subst hname
      rw [if_neg hmem, if_pos List.mem_cons_self, Function.update_self, hws]
    · rw [if_neg hmem, if_neg (by simp [hname, hmem]), Function.update_of_ne hname]

/-- With no failure, every attachment has its new root, and every file. -/
theorem commitAttachments_ok (hws : ∀ name ∈ names, (working name).isSome)
    (hok : ∀ name ∈ names, env.commitAttachment name = none) :
    ∀ files attached, commitAttachments env place working names files attached =
      (rootsOf working (names.filter place.attachment) files,
        .ok (rootsOf working names attached)) := by
  induction names with
  | nil =>
    intro files attached
    rw [List.filter_nil, rootsOf_nil, rootsOf_nil]
    rfl
  | cons name names ih =>
    intro files attached
    obtain ⟨ws, hname⟩ := Option.isSome_iff_exists.mp (hws name List.mem_cons_self)
    rw [commitAttachments, hname]
    dsimp only
    rw [hok name List.mem_cons_self]
    dsimp only
    rw [ih (fun n hn => hws n (List.mem_cons_of_mem name hn))
      fun n hn => hok n (List.mem_cons_of_mem name hn), rootsOf_cons hname]
    by_cases hfile : place.attachment name = true
    · rw [if_pos hfile, List.filter_cons_of_pos hfile, rootsOf_cons hname]
    · rw [if_neg hfile, List.filter_cons_of_neg hfile]

theorem commitAttachments_error (hws : ∀ name ∈ names, (working name).isSome)
    (hfail : ∃ name ∈ names, (env.commitAttachment name).isSome)
    (hlast : ∀ pre name post, names = pre ++ name :: post → place.attachment name = true →
      post = []) :
    ∃ fail, failing env names = some fail ∧ ∀ files attached,
      commitAttachments env place working names files attached =
        (rootsOf working (if written place fail then [fail.1] else []) files, .error fail.2.error) := by
  induction names with
  | nil =>
    obtain ⟨_, hmem, _⟩ := hfail
    cases hmem
  | cons name names ih =>
    obtain ⟨ws, hname⟩ := Option.isSome_iff_exists.mp (hws name List.mem_cons_self)
    unfold failing
    rw [List.findSome?_cons]
    cases henv : env.commitAttachment name with
    | some fault =>
      refine ⟨(name, fault), rfl, fun files attached => ?_⟩
      rw [commitAttachments, hname]
      dsimp only
      rw [henv]
      dsimp only
      rw [written]
      cases place.attachment name && fault.written with
      | true => rw [if_pos rfl, if_pos rfl, ← rootsOf_cons hname, rootsOf_nil]
      | false => rw [if_neg Bool.false_ne_true, if_neg Bool.false_ne_true, rootsOf_nil]
    | none =>
      have hrest : ∃ n ∈ names, (env.commitAttachment n).isSome := by
        obtain ⟨n, hn, hsome⟩ := hfail
        obtain rfl | hn := List.mem_cons.mp hn
        · rw [henv] at hsome
          cases hsome
        · exact ⟨n, hn, hsome⟩
      have hmemory : ¬place.attachment name = true := by
        intro hfile
        rw [hlast [] name names rfl hfile] at hrest
        obtain ⟨_, hmem, _⟩ := hrest
        cases hmem
      obtain ⟨fail, hfirst, hcommit⟩ := ih (fun n hn => hws n (List.mem_cons_of_mem name hn)) hrest
        fun pre n post hnames => hlast (name :: pre) n post (by rw [hnames]; rfl)
      refine ⟨fail, hfirst, fun files attached => ?_⟩
      rw [commitAttachments, hname]
      dsimp only
      rw [henv]
      dsimp only
      rw [if_neg hmemory, hcommit]

theorem mem_order {dirty : List String} :
    name ∈ order place dirty ↔ name ∈ dirty := by
  unfold order
  rw [List.mem_append, List.mem_filter, List.mem_filter]
  cases place.attachment name <;> simp

theorem order_last {dirty : List String} (hone : (dirty.filter place.attachment).length ≤ 1) :
    ∀ pre name post, order place dirty = pre ++ name :: post → place.attachment name = true →
      post = [] := by
  intro pre name post h hfile
  obtain ⟨mid, -, hfiles⟩ | ⟨mid, hmemory, hfiles⟩ := List.append_eq_append_iff.mp h
  · rw [hfiles, List.length_append, List.length_cons] at hone
    exact List.eq_nil_of_length_eq_zero (by omega)
  · cases mid with
    | nil =>
      rw [List.nil_append] at hfiles
      rw [← hfiles, List.length_cons] at hone
      exact List.eq_nil_of_length_eq_zero (by omega)
    | cons other mid =>
      obtain ⟨rfl, -⟩ := List.cons.inj hfiles
      have hmem : name ∈ dirty.filter fun n => !place.attachment n := by
        rw [hmemory]
        exact List.mem_append_right pre List.mem_cons_self
      rw [List.mem_filter, hfile] at hmem
      cases hmem.2

theorem rootsOf_congr {names' : List String} (h : ∀ name, name ∈ names ↔ name ∈ names') :
    rootsOf working names base = rootsOf working names' base := by
  funext name
  unfold rootsOf
  by_cases hmem : name ∈ names
  · rw [if_pos hmem, if_pos ((h name).mp hmem)]
  · rw [if_neg hmem, if_neg fun hn => hmem ((h name).mpr hn)]

/-! ## The commit's cases -/

variable {s : Session σ ς} {D : Snapshots σ κ} {tx : ActiveTx σ ς} {r : Refined σ}

theorem commitRefined_precheck (s : Session σ ς) (place : Placement) (tx : ActiveTx σ ς)
    (h : ¬Passes env r) :
    ∃ e, s.commitRefined env place tx r = (s.restore tx, .error e) := by
  obtain ⟨hneeds, hfail⟩ := Classical.not_imp.mp h
  obtain ⟨e, he⟩ := Option.ne_none_iff_exists'.mp hfail
  refine ⟨e, ?_⟩
  unfold commitRefined
  rw [if_pos hneeds, he]

/-- Up to the temp domain, a failure leaves only the session's own view of main changed. -/
theorem commitRefined_beforeTemp (s : Session σ ς) (tx : ActiveTx σ ς) (hpass : Passes env r)
    (h : FailsBeforeTemp env place r) : ∃ e committed, s.commitRefined env place tx r =
      ({ s with committed := committed }, .error e) := by
  have hpre : (if r.tempDirty || !r.dirty.isEmpty then env.precheck else none) = none := by
    split
    · exact hpass ‹_›
    · rfl
  unfold commitRefined
  rw [hpre]
  dsimp only
  by_cases hdurable : 1 < durable place r
  · rw [if_pos hdurable]
    exact ⟨_, s.committed, rfl⟩
  · rw [if_neg hdurable]
    obtain hdurable' | ⟨htemp, hfail⟩ := h
    · exact absurd hdurable' hdurable
    · rw [if_pos htemp]
      cases hstage : env.stageTemp with
      | some e => exact ⟨e, s.committed, rfl⟩
      | none =>
        rw [hstage] at hfail
        obtain ⟨e, he⟩ := Option.isSome_iff_exists.mp (hfail.resolve_left (by simp))
        dsimp only
        rw [if_pos htemp, he]
        refine ⟨e, if r.mainDirty then r.working else s.committed, ?_⟩
        cases r.mainDirty <;> rfl

/-- What the commit does with the attachments once the temp domain is adopted. -/
theorem commitRefined_eq (hpass : Passes env r) (h : ¬FailsBeforeTemp env place r) :
    s.commitRefined env place tx r =
      match commitAttachments env place r.attachWorking (order place r.dirty) s.core.files
          s.attached with
      | (files, .error e) => ({ s with
          committed := if r.mainDirty then r.working else s.committed
          temp := r.tempWorking
          core := { s.core with files := files } }, .error e)
      | (files, .ok attached) => ({ s with
          committed := if r.mainDirty then r.working else s.committed
          temp := r.tempWorking
          core := { s.core with files := files }
          attached := attached }, .ok ()) := by
  have hpre : (if r.tempDirty || !r.dirty.isEmpty then env.precheck else none) = none := by
    split
    · exact hpass ‹_›
    · rfl
  obtain ⟨hdurable, htemp⟩ := not_or.mp h
  have hstage : (if r.tempDirty then env.stageTemp else none) = none := by
    split
    · exact Option.not_isSome_iff_eq_none.mp fun hsome => htemp ⟨‹_›, .inl hsome⟩
    · rfl
  have hadopt : (if r.tempDirty then env.adoptTemp else none) = none := by
    split
    · exact Option.not_isSome_iff_eq_none.mp fun hsome => htemp ⟨‹_›, .inr hsome⟩
    · rfl
  unfold commitRefined
  rw [hpre]
  dsimp only
  rw [if_neg hdurable, hstage]
  dsimp only
  rw [hadopt]
  cases r.mainDirty <;> rfl

theorem durable_files (h : ¬FailsBeforeTemp env place r) :
    (r.dirty.filter place.attachment).length ≤ 1 := by
  have := not_lt.mp (not_or.mp h).1
  unfold durable at this
  omega

theorem commitRefined_attachment (s : Session σ ς) (tx : ActiveTx σ ς)
    (hws : ∀ name ∈ r.dirty, (r.attachWorking name).isSome) (hpass : Passes env r) (h : ¬FailsBeforeTemp env place r) (hfail : FailsAttachment env r) :
    ∃ fail committed, failing env (order place r.dirty) = some fail ∧
      s.commitRefined env place tx r = ({ s with
        committed := committed
        temp := r.tempWorking
        core := { s.core with
          files := rootsOf r.attachWorking (if written place fail then [fail.1] else []) s.core.files } },
        .error fail.2.error) := by
  obtain ⟨name, hname, hsome⟩ := hfail
  obtain ⟨fail, hfirst, hcommit⟩ := commitAttachments_error (fun n hn => hws n (mem_order.mp hn))
    ⟨name, mem_order.mpr hname, hsome⟩ (order_last (durable_files h))
  rw [commitRefined_eq hpass h, hcommit]
  exact ⟨fail, _, hfirst, rfl⟩

theorem commitRefined_ok (hws : ∀ name ∈ r.dirty, (r.attachWorking name).isSome)
    (hpass : Passes env r) (h : ¬FailsBeforeTemp env place r) (hok : ¬FailsAttachment env r) :
    s.commitRefined env place tx r = ({ s with
      committed := if r.mainDirty then r.working else s.committed
      temp := r.tempWorking
      core := { s.core with
        files := rootsOf r.attachWorking (r.dirty.filter place.attachment) s.core.files }
      attached := rootsOf r.attachWorking r.dirty s.attached }, .ok ()) := by
  have hnone : ∀ name ∈ order place r.dirty, env.commitAttachment name = none := by
    intro name hname
    exact Option.not_isSome_iff_eq_none.mp fun hsome => hok ⟨name, mem_order.mp hname, hsome⟩
  rw [commitRefined_eq hpass h, commitAttachments_ok (fun n hn => hws n (mem_order.mp hn)) hnone]
  have hfiles : rootsOf r.attachWorking ((order place r.dirty).filter place.attachment) s.core.files
      = rootsOf r.attachWorking (r.dirty.filter place.attachment) s.core.files :=
    rootsOf_congr fun name => by rw [List.mem_filter, List.mem_filter, mem_order]
  dsimp only
  rw [hfiles, rootsOf_congr fun name => mem_order]

/-! ## What is seen after it -/

theorem rootsOf_content {f : σ → κ} :
    ((fun name => (rootsOf working names base name).map f) = fun name => (base name).map f) ↔
      ∀ name ∈ names, (working name).map f = (base name).map f := by
  constructor
  · intro h name hname
    have := congrFun h name
    unfold rootsOf at this
    rwa [if_pos hname] at this
  · intro h
    funext name
    unfold rootsOf
    by_cases hname : name ∈ names
    · rw [if_pos hname, h name hname]
    · rw [if_neg hname]

variable {acted : Bool} {tempWorking : σ}

theorem content_main (hopen : Open D s tx) (h : (s.refine D tx acted tempWorking).mainDirty = false) :
    D.content s.core.main = D.content tx.working := by
  rw [← hopen.main]
  change (tx.mainDirty && D.changedSince tx.working s.committed) = false at h
  cases hdirty : tx.mainDirty with
  | false => exact (hopen.working hdirty).symm
  | true =>
    rw [hdirty, Bool.true_and] at h
    exact (D.content_of_unchanged h).symm

/-- An attachment the refinement leaves out has what its base has. -/
theorem content_attached (hopen : Open D s tx) :
    (fun name => (rootsOf tx.attachWorking (s.refine D tx acted tempWorking).dirty s.attached
        name).map D.content) =
      fun name => (rootsOf tx.attachWorking tx.attachDirty s.core.attached name).map D.content := by
  rw [← hopen.attached]
  funext name
  unfold rootsOf
  change (if name ∈ tx.attachDirty.filter (s.attachChanged D tx) then _ else _ : Option σ).map _ = _
  by_cases hdirty : name ∈ tx.attachDirty
  · rw [if_pos hdirty]
    by_cases hchanged : s.attachChanged D tx name = true
    · rw [if_pos (List.mem_filter.mpr ⟨hdirty, hchanged⟩)]
    · rw [if_neg fun h => hchanged (List.mem_filter.mp h).2]
      obtain ⟨hws, hbase⟩ := hopen.dirty name hdirty
      obtain ⟨ws, hws⟩ := Option.isSome_iff_exists.mp hws
      obtain ⟨base, hbase⟩ := Option.isSome_iff_exists.mp hbase
      unfold attachChanged at hchanged
      rw [hws, hbase] at hchanged
      have hsame : D.content ws = D.content base :=
        D.content_of_unchanged (Bool.eq_false_iff.mpr hchanged)
      rw [hws, hbase, Option.map_some, Option.map_some, hsame]
  · rw [if_neg hdirty, if_neg fun h => hdirty (List.mem_filter.mp h).1]

theorem view_eq_before {s' : Session σ ς} (hmain : s'.core.main = s.core.main)
    (hattached : s'.core.attached = s.core.attached) (hseq : s'.seq = s.seq) :
    s'.view D = s.before D tx ↔ tx.savedSeq = s.seq ∧ D.content s'.temp = D.content s.temp ∧
      D.content s'.core.mainFile = D.content s.core.mainFile ∧ (fun name => (s'.core.files name).map D.content) =
        fun name => (s.core.files name).map D.content := by
  unfold before view restore
  rw [hmain, hattached, hseq, View.mk.injEq]
  constructor
  · rintro ⟨-, htemp, -, hseq, hmainFile, hfiles⟩
    exact ⟨hseq.symm, htemp, hmainFile, hfiles⟩
  · rintro ⟨hseq, htemp, hmainFile, hfiles⟩
    exact ⟨rfl, htemp, rfl, hseq.symm, hmainFile, hfiles⟩

/-- The session once everything but main's own commit is done. -/
def staged (s : Session σ ς) (place : Placement) (r : Refined σ) : Session σ ς := { s with
  committed := if r.mainDirty then r.working else s.committed
  temp := r.tempWorking
  core := { s.core with
    files := rootsOf r.attachWorking (r.dirty.filter place.attachment) s.core.files }
  attached := rootsOf r.attachWorking r.dirty s.attached }

/-- Main's file holds the new snapshot though its persist fails. -/
def MainWritten (env : Environment) (place : Placement) (r : Refined σ) : Prop :=
  r.mainDirty = true ∧ env.checkPids = none ∧
    ∃ fault, env.persist = some fault ∧ (place.main && fault.written) = true

/-- A publish that fails leaves the roots, but for main's file where that is written. -/
theorem publish_error (s : Session σ ς) (place : Placement) (h : FailsPublish env r) :
    ∃ (s' : Session σ ς) (e : Failure),
      (s.staged place r).publish env place r.mainDirty (!r.dirty.isEmpty) = (s', .error e) ∧
      s'.core.main = s.core.main ∧ s'.core.attached = s.core.attached ∧ s'.seq = s.seq ∧
      s'.temp = r.tempWorking ∧ s'.core.files = (s.staged place r).core.files ∧
      (MainWritten env place r → s'.core.mainFile = r.working) ∧
      (¬MainWritten env place r → s'.core.mainFile = s.core.mainFile) := by
  obtain ⟨hchanged, hfail⟩ := h
  have hpub : ¬(!r.mainDirty && !!r.dirty.isEmpty) = true := by
    obtain hmain | hdirty := hchanged
    · simp [hmain]
    · simp [hdirty]
  unfold publish
  rw [if_neg hpub]
  cases hpids : env.checkPids with
  | some e =>
    refine ⟨_, e, rfl, rfl, rfl, rfl, rfl, rfl, fun h => ?_, fun _ => rfl⟩
    rw [MainWritten, hpids] at h
    cases h.2.1
  | none =>
    rw [hpids] at hfail
    obtain ⟨hmain, hpersist⟩ := hfail.resolve_left (by simp)
    obtain ⟨fault, hfault⟩ := Option.isSome_iff_exists.mp hpersist
    dsimp only
    rw [hmain, hfault]
    refine ⟨_, _, rfl, rfl, rfl, rfl, rfl, rfl, ?_, fun h => ?_⟩
    · rintro ⟨-, -, fault', hfault', hwritten⟩
      cases hfault.symm.trans hfault'
      simp only [hwritten, if_true, staged, hmain]
    · have hnot : ¬(place.main && fault.written) = true := fun hw => h ⟨hmain, hpids, fault, hfault, hw⟩
      simp only [if_neg hnot, staged]

/-- A publish that does not fail: the roots, but for the attached ones of a commit that is there
    already. -/
theorem publish_ok (s : Session σ ς) (place : Placement) (h : ¬FailsPublish env r) :
    ∃ s' : Session σ ς, (s.staged place r).publish env place r.mainDirty (!r.dirty.isEmpty) =
        (s', .ok ()) ∧ s'.temp = r.tempWorking ∧ s'.seq = s.seq ∧
      s'.core.files = (s.staged place r).core.files ∧
      s'.core.main = (if r.mainDirty then r.working else s.core.main) ∧
      s'.core.mainFile = (if r.mainDirty && place.main then r.working else s.core.mainFile) ∧
      s'.core.attached = (if r.mainDirty = true ∧ env.stored = false ∨
          r.mainDirty = false ∧ r.dirty = [] then s.core.attached
        else rootsOf r.attachWorking r.dirty s.attached) := by
  unfold publish
  by_cases hnone : r.mainDirty = false ∧ r.dirty = []
  · obtain ⟨hmain, hdirty⟩ := hnone
    rw [if_pos (by simp [hmain, hdirty])]
    refine ⟨_, rfl, rfl, rfl, rfl, ?_, ?_, ?_⟩ <;> simp [hmain, hdirty, staged]
  have hchanged : r.mainDirty = true ∨ r.dirty ≠ [] := by
    by_contra hneither
    obtain ⟨hmain, hdirty⟩ := not_or.mp hneither
    exact hnone ⟨Bool.eq_false_iff.mpr hmain, not_not.mp hdirty⟩
  have hpub : ¬(!r.mainDirty && !!r.dirty.isEmpty) = true := by
    obtain hmain | hdirty := hchanged
    · simp [hmain]
    · simp [hdirty]
  have hpids : env.checkPids = none :=
    Option.not_isSome_iff_eq_none.mp fun hsome => h ⟨hchanged, .inl hsome⟩
  rw [if_neg hpub, hpids]
  dsimp only
  cases hmain : r.mainDirty with
  | false =>
    rw [if_pos (by simp)]
    refine ⟨_, rfl, rfl, rfl, rfl, ?_, ?_, ?_⟩
    · simp [staged]
    · simp [staged]
    · have hdirty : r.dirty ≠ [] := fun hdirty => hnone ⟨hmain, hdirty⟩
      simp [staged, hdirty]
  | true =>
    have hpersist : env.persist = none :=
      Option.not_isSome_iff_eq_none.mp fun hsome => h ⟨hchanged, .inr ⟨hmain, hsome⟩⟩
    rw [if_neg (by simp), hpersist]
    dsimp only
    cases hstored : env.stored <;> cases hplace : place.main <;>
      exact ⟨_, rfl, rfl, rfl, rfl, by simp [staged, hmain], by simp [staged, hmain],
        by simp [staged]⟩

/-- From the refinement on, a commit whose precheck passes is all or nothing exactly where what it did
    is undone. -/
theorem atomic_refined (hopen : Open D s tx) (hwritable : (tx.failed || !tx.writable) = false)
    (hacted : D.onCommit tx.tempWorking = .ok (acted, tempWorking))
    (hr : s.refine D tx acted tempWorking = r) (hpass : Passes env r) :
    s.Atomic D place tx
        (match s.commitRefined env place tx r with
        | (s', .error e) => (s', .error e)
        | (s', .ok ()) => s'.publish env place r.mainDirty (!r.dirty.isEmpty)) ↔
      s.Undone D env place tx r := by
  have hws : ∀ name ∈ r.dirty, (r.attachWorking name).isSome := by
    intro name hname
    rw [← hr] at hname ⊢
    exact (hopen.dirty name (List.mem_filter.mp hname).1).1
  have hworking : r.working = tx.working := by
    rw [← hr]
    rfl
  have hattach : r.attachWorking = tx.attachWorking := by
    rw [← hr]
    rfl
  by_cases hbefore : FailsBeforeTemp env place r
  · obtain ⟨e, committed, heq⟩ := commitRefined_beforeTemp s tx hpass hbefore
    rw [heq]
    refine Iff.trans (view_eq_before rfl rfl rfl) ⟨fun h => ?_, fun h => ?_⟩
    · exact ⟨fun _ => h.1, fun hn => absurd hbefore hn, fun hn => absurd hbefore hn,
        fun hn => absurd hbefore hn, fun hn => absurd hbefore hn, fun hn => absurd hbefore hn⟩
    · exact ⟨h.seq (.inl hbefore), rfl, rfl, rfl⟩
  by_cases hattachment : FailsAttachment env r
  · obtain ⟨fail, committed, hfirst, heq⟩ := commitRefined_attachment s tx hws hpass hbefore hattachment
    rw [heq]
    refine Iff.trans (view_eq_before rfl rfl rfl) ⟨fun h => ?_, fun h => ?_⟩
    · refine ⟨fun _ => h.1, fun _ _ => h.2.1, fun _ fail' hfirst' hwritten => ?_,
        fun _ hn => absurd hattachment hn, fun _ hn => absurd hattachment hn, fun _ hn => absurd hattachment hn⟩
      cases hfirst.symm.trans hfirst'
      exact rootsOf_content.mp h.2.2.2 fail.1 (by rw [if_pos hwritten]; exact List.mem_singleton_self _)
    · refine ⟨h.seq (.inr (.inl hattachment)), h.temp hbefore (.inl hattachment), rfl,
        rootsOf_content.mpr fun name hname => ?_⟩
      split at hname
      case isTrue hwritten =>
        obtain rfl := List.mem_singleton.mp hname
        exact h.attachmentFile hbefore fail hfirst hwritten
      case isFalse => cases hname
  rw [show s.commitRefined env place tx r = (s.staged place r, .ok ()) from
    commitRefined_ok hws hpass hbefore hattachment]
  dsimp only
  have hfirst : ∀ fail, failing env (order place r.dirty) ≠ some fail := by
    intro fail hfirst
    obtain ⟨name, hname, hfails⟩ := List.exists_of_findSome?_eq_some hfirst
    obtain ⟨fault, hfault, -⟩ := Option.map_eq_some_iff.mp hfails
    exact hattachment ⟨name, mem_order.mp hname, by rw [hfault]; rfl⟩
  by_cases hpublish : FailsPublish env r
  · obtain ⟨s', e, heq, hmain, hattached, hseq, htemp, hkept, hwrites, hleaves⟩ := publish_error s place hpublish
    rw [heq]
    have hfiles : ((fun name => ((s.staged place r).core.files name).map D.content) =
        fun name => (s.core.files name).map D.content) ↔
          ∀ name ∈ r.dirty, place.attachment name = true →
            (r.attachWorking name).map D.content = (s.core.files name).map D.content := by
      refine rootsOf_content.trans ⟨fun h name hname hfile => ?_, fun h name hname => ?_⟩
      · exact h name (List.mem_filter.mpr ⟨hname, hfile⟩)
      · exact h name (List.mem_filter.mp hname).1 (List.mem_filter.mp hname).2
    refine Iff.trans (view_eq_before hmain hattached hseq) ?_
    rw [htemp, hkept]
    refine ⟨fun h => ?_, fun h => ?_⟩
    · refine ⟨fun _ => h.1, fun _ _ => h.2.1, fun _ fail hfail => absurd hfail (hfirst fail),
        fun _ _ hdirty hpids fault hfault hwritten => ?_, fun _ _ _ => hfiles.mp h.2.2.2,
        fun _ _ hn => absurd hpublish hn⟩
      rw [← hwrites ⟨hdirty, hpids, fault, hfault, hwritten⟩]
      exact h.2.2.1
    · refine ⟨h.seq (.inr (.inr hpublish)), h.temp hbefore (.inr hpublish), ?_,
        hfiles.mpr (h.files hbefore hattachment hpublish)⟩
      by_cases hmainWritten : MainWritten env place r
      · rw [hwrites hmainWritten]
        obtain ⟨hdirty, hpids, fault, hfault, hwritten⟩ := hmainWritten
        exact h.mainFile hbefore hattachment hdirty hpids fault hfault hwritten
      · rw [hleaves hmainWritten]
  obtain ⟨s', heq, htemp, hseq, hfiles, hmain, hmainFile, hattached⟩ :=
    publish_ok s place hpublish
  rw [heq]
  have hnonePersists : ¬FailsBeforeTemp env place r → ¬FailsAttachment env r → r.mainDirty = true →
      env.checkPids = none → ∀ fault, env.persist = some fault → (place.main && fault.written) = true →
        D.content r.working = D.content s.core.mainFile :=
    fun _ _ hdirty _ fault hfault _ => absurd ⟨.inl hdirty, .inr ⟨hdirty, by rw [hfault]; rfl⟩⟩ hpublish
  have hmainView : D.content s'.core.main = D.content tx.working := by
    rw [hmain]
    cases hdirty : r.mainDirty with
    | true => rw [if_pos rfl, hworking]
    | false =>
      rw [if_neg Bool.false_ne_true]
      exact content_main hopen (hr ▸ hdirty)
  have hdirtyView : (fun name => (rootsOf r.attachWorking r.dirty s.attached name).map D.content) =
      fun name => (rootsOf tx.attachWorking tx.attachDirty s.core.attached name).map D.content := by
    rw [hattach, ← hr]
    exact content_attached hopen
  -- Everything but the attached roots is the transaction's.
  have hview : s'.view D = s.after D place tx r ↔
      (fun name => (s'.core.attached name).map D.content) =
        fun name => (rootsOf r.attachWorking r.dirty s.attached name).map D.content := by
    unfold view after
    rw [View.mk.injEq, hmainView, htemp, hseq, hfiles, hmainFile, hdirtyView]
    constructor
    · rintro ⟨-, -, h, -, -, -⟩
      exact h
    · intro h
      refine ⟨rfl, rfl, h, rfl, rfl, ?_⟩
      rw [← hattach]
      rfl
  have hatomic : s.Atomic D place tx (s', .ok ()) ↔ s'.view D = s.after D place tx r := by
    change (if (tx.failed || !tx.writable) = true then _ else _) ↔ _
    rw [hwritable, if_neg Bool.false_ne_true]
    constructor
    · rintro ⟨acted', tempWorking', hacted', h⟩
      obtain ⟨rfl, rfl⟩ := Prod.mk.inj (Except.ok.inj (hacted.symm.trans hacted'))
      rwa [hr] at h
    · intro h
      exact ⟨acted, tempWorking, hacted, by rwa [hr]⟩
  rw [hatomic, hview, hattached]
  by_cases hstored : r.mainDirty = true ∧ env.stored = false
  · rw [if_pos (.inl hstored), ← hopen.attached]
    refine (eq_comm.trans rootsOf_content).trans ⟨fun h => ?_, fun h => ?_⟩
    · refine ⟨fun hf => ?_, fun _ hf => ?_, fun _ fail hfail => absurd hfail (hfirst fail), hnonePersists, fun _ _ hf => absurd hf hpublish,
        fun _ _ _ _ _ => ?_⟩
      · exact absurd hf (by simp [hbefore, hattachment, hpublish])
      · exact absurd hf (by simp [hattachment, hpublish])
      · rw [← hopen.attached]
        exact h
    · have := h.stored hbefore hattachment hpublish hstored.1 hstored.2
      rwa [← hopen.attached] at this
  · have hsame :
        (if r.mainDirty = true ∧ env.stored = false ∨ r.mainDirty = false ∧ r.dirty = [] then
          s.core.attached else rootsOf r.attachWorking r.dirty s.attached) =
            rootsOf r.attachWorking r.dirty s.attached := by
      by_cases hnone : r.mainDirty = false ∧ r.dirty = []
      · rw [if_pos (.inr hnone), hnone.2, rootsOf_nil, hopen.attached]
      · rw [if_neg (not_or.mpr ⟨hstored, hnone⟩)]
    rw [hsame]
    refine ⟨fun _ => ⟨fun hf => ?_, fun _ hf => ?_, fun _ fail hfail => absurd hfail (hfirst fail), hnonePersists, fun _ _ hf => absurd hf hpublish,
      fun _ _ _ hmain hnot => absurd ⟨hmain, hnot⟩ hstored⟩, fun _ => rfl⟩
    · exact absurd hf (by simp [hbefore, hattachment, hpublish])
    · exact absurd hf (by simp [hattachment, hpublish])

/-- COMMIT is all or nothing exactly where, past the exits that restore the session, what was done by
    the time of a failure is undone. -/
theorem commit_atomic_iff (env : Environment) (place : Placement) (hopen : Open D s tx) :
    s.Atomic D place tx (s.commit D env place tx) ↔ s.AllUndone D env place tx := by
  unfold commit AllUndone
  cases hstale : env.stale with
  | some e => exact ⟨(fun _ _ _ h => by cases h), fun _ => rfl⟩
  | none =>
    dsimp only
    by_cases hdiscard : (tx.failed || !tx.writable) = true
    · rw [if_pos hdiscard]
      constructor
      · intro _ _ _ _ hfailed hwritable
        rw [hfailed, hwritable] at hdiscard
        cases hdiscard
      · intro _
        change if (tx.failed || !tx.writable) = true then _ else _
        rw [if_pos hdiscard]
        rfl
    rw [if_neg hdiscard]
    have hwritable : (tx.failed || !tx.writable) = false := Bool.eq_false_iff.mpr hdiscard
    obtain ⟨hfailed, hwrite⟩ := Bool.or_eq_false_iff.mp hwritable
    cases hacted : D.onCommit tx.tempWorking with
    | error e => exact ⟨(fun _ _ _ _ _ _ h => by cases h), fun _ => rfl⟩
    | ok x =>
      obtain ⟨acted, tempWorking⟩ := x
      dsimp only
      by_cases hpass : Passes env (s.refine D tx acted tempWorking)
      · refine (atomic_refined hopen hwritable hacted rfl hpass).trans ⟨fun h => ?_, fun h => ?_⟩
        · intro acted' tempWorking' _ _ _ hacted' _
          obtain ⟨rfl, rfl⟩ := Prod.mk.inj (Except.ok.inj hacted')
          exact h
        · exact h acted tempWorking rfl hfailed (by simpa using hwrite) rfl hpass
      · obtain ⟨e, he⟩ := commitRefined_precheck s place tx hpass
        rw [he]
        constructor
        · intro _ acted' tempWorking' _ _ _ hacted' hpass'
          obtain ⟨rfl, rfl⟩ := Prod.mk.inj (Except.ok.inj hacted')
          exact absurd hpass' hpass
        · exact fun _ => rfl

/-! ## Commits that are neither -/

/-- Snapshots that are what they hold, with no ON COMMIT action. -/
def numbers : Snapshots ℕ ℕ where
  changedSince a b := a != b
  content := id
  onCommit a := .ok (false, a)
  content_of_unchanged h := by simpa using h

/-- Main and an attachment `a`, both in files. -/
def idle : Session ℕ ℕ where
  core := ⟨1, fun name => if name = "a" then some 1 else none, 1,
    fun name => if name = "a" then some 1 else none⟩
  committed := 1
  attached name := if name = "a" then some 1 else none
  temp := 1
  seq := 5

/-- A transaction of the changed domains, begun at sequence state `savedSeq`. -/
def changing (main temp attached : Bool) (savedSeq : ℕ) : ActiveTx ℕ ℕ where
  writable := true
  failed := false
  working := if main then 2 else 1
  mainDirty := main
  tempWorking := if temp then 2 else 1
  tempDirty := temp
  attachWorking name := if attached ∧ name = "a" then some 2 else none
  attachDirty := if attached then ["a"] else []
  savedSeq := savedSeq

/-- Every call succeeds. -/
def calm : Environment := ⟨none, none, none, none, fun _ => none, none, none, true⟩

def unreadable : Failure := .error ⟨.dataCorrupted, "page index out of range", none⟩

theorem open_changing (main temp attached : Bool) (savedSeq : ℕ) :
    Open numbers idle (changing main temp attached savedSeq) where
  main := rfl
  attached := rfl
  working h := by
    cases main with
    | false => rfl
    | true => cases h
  dirty name hname := by
    cases attached with
    | false => cases hname
    | true =>
      obtain rfl := List.mem_singleton.mp hname
      exact ⟨rfl, rfl⟩
  nodup := by cases attached <;> simp [changing]

/-- The temp domain keeps a transaction whose main persist fails, and main's file one whose sync fails behind
    the meta; the sequence state keeps one that is refused for a second durable database; a file keeps one
    whose publish fails; and an attachment in memory loses one whose main is published already. -/
theorem neither_all_nor_nothing :
    ¬idle.Atomic numbers ⟨true, fun _ => true⟩ (changing true true false 5)
      (idle.commit numbers { calm with persist := some ⟨unreadable, false⟩ } ⟨true, fun _ => true⟩
        (changing true true false 5)) ∧
    ¬idle.Atomic numbers ⟨true, fun _ => true⟩ (changing true false false 5)
      (idle.commit numbers { calm with persist := some ⟨unreadable, true⟩ } ⟨true, fun _ => true⟩
        (changing true false false 5)) ∧
    ¬idle.Atomic numbers ⟨true, fun _ => true⟩ (changing true false true 4)
      (idle.commit numbers calm ⟨true, fun _ => true⟩ (changing true false true 4)) ∧
    ¬idle.Atomic numbers ⟨true, fun _ => true⟩ (changing false false true 5)
      (idle.commit numbers { calm with checkPids := some unreadable } ⟨true, fun _ => true⟩
        (changing false false true 5)) ∧
    ¬idle.Atomic numbers ⟨true, fun _ => false⟩ (changing true false true 5)
      (idle.commit numbers { calm with stored := false } ⟨true, fun _ => false⟩
        (changing true false true 5)) := by
  refine ⟨fun h => ?_, fun h => ?_, fun h => ?_, fun h => ?_, fun h => ?_⟩
  · have := congrArg View.temp h
    cases this
  · have := congrArg View.mainFile h
    cases this
  · have := congrArg View.seq h
    cases this
  · have := congrFun (congrArg View.files h) "a"
    cases this
  · obtain ⟨acted, tempWorking, hacted, hview⟩ := h
    cases hacted
    have := congrFun (congrArg View.attached hview) "a"
    cases this

/-- A commit of all domains in one piece. -/
theorem commit_atomic_iff_calm :
    idle.Atomic numbers ⟨true, fun _ => false⟩ (changing true true true 4)
        (idle.commit numbers calm ⟨true, fun _ => false⟩ (changing true true true 4)) ↔
      idle.AllUndone numbers calm ⟨true, fun _ => false⟩ (changing true true true 4) :=
  commit_atomic_iff calm ⟨true, fun _ => false⟩ (open_changing true true true 4)

end Session

end Jed.Commit
