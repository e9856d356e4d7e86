import Jed.Txn.Marked

/-!
# Savepoints

The savepoints of a block are a stack of whole copies of its state. The copies of the reference share
nothing; those of the block share the nodes of their trees with its own state and with each other.
-/

namespace Jed.Txn

open Arc PMap SortedMap

variable {ε ρ κ : Type}

/-- A block over trees that are values, with the copies that its savepoints made, newest first. -/
structure CopyBlock (κ ρ : Type) where
  writable : Bool
  failed : Bool
  current : Marked κ (TreeMap ρ)
  stack : List (Name × Marked κ (TreeMap ρ))

namespace CopyBlock

def abort (b : CopyBlock κ ρ) : CopyBlock κ ρ := { b with failed := true }

/-- A statement does to the values what it does to a block. -/
def execute (attached : ByName (Snapshot κ (TreeMap ρ))) (b : CopyBlock κ ρ)
    (faults : List (Option (Failure ε))) (stmt : Statement ρ κ) :
    Except (StmtError ε) Unit × CopyBlock κ ρ × List (Option (Failure ε)) :=
  if b.failed then (.error .inFailedSqlTransaction, b, faults)
  else if stmt.isWrite && !b.writable then (.error .readOnlySqlTransaction, b.abort, faults)
  else
    let (res, m, faults) := stmt.run treeValues attached b.current faults
    (res, { b with current := m, failed := !res.isOk }, faults)

/-- The stack from its newest copy of a name. -/
def newest (b : CopyBlock κ ρ) (name : Name) : List (Name × Marked κ (TreeMap ρ)) :=
  b.stack.dropWhile fun copy => copy.1 ≠ name

/-- A savepoint pushes a copy; a release pops through the newest of the name; a rollback pops down to
    it and takes its state. -/
def savepoint (b : CopyBlock κ ρ) (op : SavepointOp) (name : Name) :
    Except (StmtError ε) Unit × CopyBlock κ ρ :=
  if b.failed ∧ op ≠ .rollbackTo then (.error .inFailedSqlTransaction, b)
  else
    match op, b.newest name with
    | .define, _ => (.ok (), { b with stack := (name, b.current) :: b.stack })
    | _, [] => (.error .invalidSavepointSpecification, b.abort)
    | .release, _ :: older => (.ok (), { b with stack := older })
    | .rollbackTo, copy :: older =>
      (.ok (), { b with stack := copy :: older, current := copy.2, failed := false })

def step (attached : ByName (Snapshot κ (TreeMap ρ))) (b : CopyBlock κ ρ)
    (faults : List (Option (Failure ε))) :
    BlockStep ρ κ → Except (StmtError ε) Unit × CopyBlock κ ρ × List (Option (Failure ε))
  | .statement stmt => b.execute attached faults stmt
  | .savepoint op name =>
    let (res, b) := b.savepoint op name
    (res, b, faults)

def run (attached : ByName (Snapshot κ (TreeMap ρ))) :
    List (BlockStep ρ κ) → CopyBlock κ ρ → List (Option (Failure ε)) →
      List (Except (StmtError ε) Unit) × CopyBlock κ ρ × List (Option (Failure ε))
  | [], b, faults => ([], b, faults)
  | s :: steps, b, faults =>
    let (res, b, faults) := b.step attached faults s
    let (ress, b, faults) := run attached steps b faults
    (res :: ress, b, faults)

end CopyBlock

section Statements

variable {disk : Disk ρ} {h : Heap ε ρ} {owned : List Addr} {m : Marked κ PMap}
  {v : Marked κ (TreeMap ρ)} {attached : ByName (Snapshot κ PMap)}
  {va : ByName (Snapshot κ (TreeMap ρ))} {src : Option (LeafSource ε ρ)}

theorem flushes_fit {τ χ : Type} (ops : TreeOps ε ρ τ χ) (attached : ByName (Snapshot κ τ))
    (seqs : List (Database × SequenceDef κ)) (m : Marked κ τ) (h : χ) :
    Marked.WritesFit ops attached (seqs.map fun e => (e.1, Mutation.putSequence e.2)) m h := by
  induction seqs generalizing m h with
  | nil => trivial
  | cons e seqs ih => exact ⟨fun _ _ => trivial, fun _ => ih _ _⟩

theorem MarkedSim.flushSession {whole : Bool} (hs : MarkedSim whole disk h m v)
    (stmt : Statement ρ κ) : MarkedSim whole disk h (m.flushSession stmt) (v.flushSession stmt) := by
  have hmarks := hs.marks
  obtain ⟨⟨mainDirty, tempDirty, attachDirty, sessionSeq, sessionLastName⟩, w, t, a⟩ := m
  obtain ⟨marks, w', t', a'⟩ := v
  cases hmarks
  exact ⟨rfl, hs.working, hs.tempWorking, hs.attachSorted, hs.attachWorking⟩

theorem flushPendingSequences_step (hsrc : SourceOk disk src)
    (hatt : AttachedOk disk owned h attached va) (hok : MarkedOk true disk owned h m v)
    (stmt : Statement ρ κ) :
    ∃ v', Told disk (fun faults => stmt.flushPendingSequences treeValues va v faults)
        (stmt.flushPendingSequences (nodeTrees src) attached m h).1 v' ∧
      MarkedStep (stmt.flushPendingSequences (nodeTrees src) attached m h).1.isOk disk owned h
        (stmt.flushPendingSequences (nodeTrees src) attached m h).2.2
        (stmt.flushPendingSequences (nodeTrees src) attached m h).2.1 v' := by
  obtain ⟨v', htold, hstep⟩ := runWrites_step hsrc _ hatt hok (flushes_fit _ _ stmt.pendingSeq _ _)
  simp only [Statement.flushPendingSequences]
  revert htold hstep
  generalize m.runWrites (nodeTrees src) attached _ h = r
  obtain ⟨res, m', h'⟩ := r
  intro htold hstep
  cases res with
  | error f => exact ⟨v', htold.map fun faults faults' hf => by rw [hf], hstep⟩
  | ok u =>
    refine ⟨v'.flushSession stmt, htold.map fun faults faults' hf => by rw [hf], ?_⟩
    exact ⟨⟨hstep.counted, hstep.sim.flushSession stmt⟩, hstep.keeps⟩

theorem statement_step (hsrc : SourceOk disk src) (hatt : AttachedOk disk owned h attached va)
    (hok : MarkedOk true disk owned h m v) {stmt : Statement ρ κ}
    (hfits : Marked.WritesFit (nodeTrees src) attached stmt.writes m h) :
    ∃ v', Told disk (fun faults => stmt.run treeValues va v faults)
        (stmt.run (nodeTrees src) attached m h).1 v' ∧
      MarkedStep (stmt.run (nodeTrees src) attached m h).1.isOk disk owned h
        (stmt.run (nodeTrees src) attached m h).2.2 (stmt.run (nodeTrees src) attached m h).2.1 v' := by
  obtain ⟨v', htold, hstep⟩ := runWrites_step hsrc stmt.writes hatt hok hfits
  simp only [Statement.run]
  revert htold hstep
  generalize m.runWrites (nodeTrees src) attached stmt.writes h = r
  obtain ⟨res, m', h'⟩ := r
  intro htold hstep
  cases res with
  | error f => exact ⟨v', htold.map fun faults faults' hf => by rw [hf], hstep⟩
  | ok u =>
    dsimp only
    cases hfails : stmt.fails with
    | true =>
      refine ⟨v', htold.map fun faults faults' hf => ?_, hstep.imp fun _ => rfl⟩
      rw [hf]
      rfl
    | false =>
      obtain ⟨v'', htold', hnext⟩ := flushPendingSequences_step hsrc (hatt.extends hstep.keeps)
        hstep.toMarkedOk stmt
      refine ⟨v'', htold.bind htold' fun faults faults' hf => ?_,
        ⟨hnext.toMarkedOk, hstep.keeps.trans hnext.keeps⟩⟩
      rw [hf]
      rfl

end Statements

/-- A savepoint's frame is a copy of the stack. -/
structure FrameSim (disk : Disk ρ) (h : Heap ε ρ) (frame : SavepointFrame κ PMap)
    (copy : Name × Marked κ (TreeMap ρ)) : Prop where
  name : frame.name = copy.1
  marked : MarkedSim true disk h frame.marked copy.2

/-- The references that savepoints hold. -/
def frameRefs (frames : List (SavepointFrame κ PMap)) : List Addr := frames.flatMap (·.marked.refs)

/-- A block is as its copy says. The trees of a block that is not failed can be edited. -/
structure BlockSim (disk : Disk ρ) (h : Heap ε ρ) (tx : ActiveTx κ PMap) (b : CopyBlock κ ρ) :
    Prop where
  writable : tx.writable = b.writable
  failed : tx.failed = b.failed
  current : MarkedSim (!tx.failed) disk h tx.current b.current
  stack : List.Forall₂ (FrameSim disk h) tx.savepoints.reverse b.stack

/-- The same, next to the references `owned` by others. -/
structure BlockOk (disk : Disk ρ) (owned : List Addr) (h : Heap ε ρ) (tx : ActiveTx κ PMap)
    (b : CopyBlock κ ρ) : Prop where
  counted : Counted Node.kids h (tx.current.refs ++ (frameRefs tx.savepoints ++ owned))
  sim : BlockSim disk h tx b

/-- What a step of a block leaves. -/
structure BlockStepOk (disk : Disk ρ) (owned : List Addr) (h h' : Heap ε ρ) (tx : ActiveTx κ PMap)
    (b : CopyBlock κ ρ) : Prop extends BlockOk disk owned h' tx b where
  keeps : Extends Node.kids owned h h'

section Frames

variable {disk : Disk ρ} {h h' : Heap ε ρ} {owned live : List Addr} {tx : ActiveTx κ PMap}
  {b : CopyBlock κ ρ}

theorem frameRefs_append (a b : List (SavepointFrame κ PMap)) :
    frameRefs (a ++ b) = frameRefs a ++ frameRefs b := List.flatMap_append

theorem frameTrees_refs (frames : List (SavepointFrame κ PMap)) :
    (ActiveTx.frameTrees frames).flatMap PMap.refs = frameRefs frames := by
  simp only [ActiveTx.frameTrees, frameRefs, List.flatMap_assoc, marked_trees_refs]

theorem framesSim_extends {frames : List (SavepointFrame κ PMap)}
    {copies : List (Name × Marked κ (TreeMap ρ))} (hs : List.Forall₂ (FrameSim disk h) frames copies)
    (he : Extends Node.kids live h h') (hl : ∀ a ∈ frameRefs frames, a ∈ live) :
    List.Forall₂ (FrameSim disk h') frames copies := by
  induction hs with
  | nil => exact .nil
  | cons hframe _ ih =>
    refine .cons ⟨hframe.name, hframe.marked.extends he fun a ha => ?_⟩ (ih fun a ha => ?_)
    · exact hl a (List.mem_append_left _ ha)
    · exact hl a (List.mem_append_right _ ha)

theorem mem_frameRefs_reverse {frames : List (SavepointFrame κ PMap)} {a : Addr} :
    a ∈ frameRefs frames.reverse ↔ a ∈ frameRefs frames := by
  simp only [frameRefs, List.mem_flatMap, List.mem_reverse]

theorem BlockOk.refl (hok : BlockOk disk owned h tx b) : BlockStepOk disk owned h h tx b :=
  ⟨hok, .refl _ _⟩

theorem BlockOk.abort (hok : BlockOk disk owned h tx b) :
    BlockStepOk disk owned h h tx.markFailed b.abort :=
  ⟨⟨hok.counted, ⟨hok.sim.writable, rfl, hok.sim.current.imp fun hfalse => (by cases hfalse),
    hok.sim.stack⟩⟩, .refl _ _⟩

/-! ### Names -/

/-- The newest savepoint of a name, and those before and after it. -/
theorem findSavepoint_cases (tx : ActiveTx κ PMap) (name : Name) :
    (tx.findSavepoint name = none ∧ ∀ f ∈ tx.savepoints, f.name ≠ name) ∨
      ∃ older frame newer, tx.savepoints = older ++ frame :: newer ∧ frame.name = name ∧
        (∀ f ∈ newer, f.name ≠ name) ∧ tx.findSavepoint name = some older.length := by
  unfold ActiveTx.findSavepoint
  generalize tx.savepoints = frames
  induction frames using List.reverseRecOn with
  | nil => exact .inl ⟨rfl, fun f hf => (by cases hf)⟩
  | append_singleton frames f ih =>
    rw [List.reverse_append, List.reverse_singleton, List.singleton_append, List.findIdx?_cons,
      List.length_append, List.length_singleton]
    by_cases hname : f.name = name
    · refine .inr ⟨frames, f, [], rfl, hname, fun f hf => (by cases hf), ?_⟩
      rw [if_pos (by simpa using hname)]
      rfl
    · rw [if_neg (by simpa using hname), Option.map_map]
      have hshift : ((fun i => frames.length + 1 - 1 - i) ∘ fun i => i + 1)
          = fun i => frames.length - 1 - i := by
        funext i
        show frames.length + 1 - 1 - (i + 1) = frames.length - 1 - i
        omega
      rw [hshift]
      cases ih with
      | inl hnone =>
        refine .inl ⟨hnone.1, fun g hg => ?_⟩
        cases List.mem_append.mp hg with
        | inl hg => exact hnone.2 g hg
        | inr hg => rwa [List.mem_singleton.mp hg]
      | inr hsome =>
        obtain ⟨older, frame, newer, hframes, hframe, hnewer, hfind⟩ := hsome
        refine .inr ⟨older, frame, newer ++ [f], by rw [hframes, List.append_assoc]; rfl, hframe,
          fun g hg => ?_, hfind⟩
        cases List.mem_append.mp hg with
        | inl hg => exact hnewer g hg
        | inr hg => rwa [List.mem_singleton.mp hg]

variable {name : Name}

/-- Copies of other names are passed over. -/
theorem dropWhile_copies {xs ys : List (SavepointFrame κ PMap)}
    {copies : List (Name × Marked κ (TreeMap ρ))} (hxs : ∀ f ∈ xs, f.name ≠ name)
    (hs : List.Forall₂ (FrameSim disk h) (xs ++ ys) copies) :
    ∃ rest, copies.dropWhile (fun copy => copy.1 ≠ name) = rest.dropWhile (fun copy => copy.1 ≠ name) ∧
      List.Forall₂ (FrameSim disk h) ys rest := by
  induction xs generalizing copies with
  | nil => exact ⟨copies, rfl, hs⟩
  | cons x xs ih =>
    cases hs with
    | @cons _ copy _ copies hcopy hs =>
      obtain ⟨rest, hrest, hys⟩ := ih (fun f hf => hxs f (List.mem_cons_of_mem _ hf)) hs
      refine ⟨rest, ?_, hys⟩
      have hne : copy.1 ≠ name := hcopy.name ▸ hxs x List.mem_cons_self
      rw [List.dropWhile_cons_of_pos (by simpa using hne), hrest]

theorem newest_none (hs : BlockSim disk h tx b) (hnone : ∀ f ∈ tx.savepoints, f.name ≠ name) :
    b.newest name = [] := by
  have hxs : ∀ f ∈ tx.savepoints.reverse, f.name ≠ name := fun f hf => hnone f (List.mem_reverse.mp hf)
  have hstack : List.Forall₂ (FrameSim disk h) (tx.savepoints.reverse ++ []) b.stack := by
    rw [List.append_nil]
    exact hs.stack
  obtain ⟨rest, hrest, hnil⟩ := dropWhile_copies hxs hstack
  cases hnil
  exact hrest

variable {older newer : List (SavepointFrame κ PMap)} {frame : SavepointFrame κ PMap}

theorem newest_some
    (hs : BlockSim disk h tx b)
    (hframes : tx.savepoints = older ++ frame :: newer) (hname : frame.name = name)
    (hnewer : ∀ f ∈ newer, f.name ≠ name) :
    ∃ copy rest, b.newest name = copy :: rest ∧ FrameSim disk h frame copy ∧
      List.Forall₂ (FrameSim disk h) older.reverse rest := by
  have hxs : ∀ f ∈ newer.reverse, f.name ≠ name := fun f hf => hnewer f (List.mem_reverse.mp hf)
  have hstack : List.Forall₂ (FrameSim disk h) (newer.reverse ++ frame :: older.reverse) b.stack := by
    have hstack := hs.stack
    rw [hframes, List.reverse_append, List.reverse_cons, List.append_assoc] at hstack
    exact hstack
  obtain ⟨rest, hrest, hys⟩ := dropWhile_copies hxs hstack
  cases hys with
  | @cons _ copy _ rest hcopy hys =>
    refine ⟨copy, rest, ?_, hcopy, hys⟩
    have heq : copy.1 = name := hcopy.name ▸ hname
    rw [CopyBlock.newest, hrest, List.dropWhile_cons_of_neg (by simpa using heq)]

/-! ### The three statements -/

theorem define_step (src : Option (LeafSource ε ρ)) (hok : BlockOk disk owned h tx b)
    (hfailed : tx.failed = false) (name : Name) :
    BlockStepOk disk owned h (tx.define (nodeTrees src) h name).2 (tx.define (nodeTrees src) h name).1
      { b with stack := (name, b.current) :: b.stack } := by
  have hcurrent := hok.sim.current
  rw [hfailed] at hcurrent
  obtain ⟨hc, he⟩ := cloneAll_spec hok.counted hcurrent.alive
  have hheap : (tx.define (nodeTrees src) h name).2 = h.cloneAll tx.current.refs := by
    rw [← marked_trees_refs]
    rfl
  rw [hheap]
  refine ⟨⟨?_, ⟨hok.sim.writable, hok.sim.failed, hok.sim.current.extends (he _) fun _ ha => ha, ?_⟩⟩,
    he _⟩
  · show Counted _ _ (tx.current.refs ++ (frameRefs (tx.savepoints ++ [⟨name, tx.current⟩]) ++ owned))
    refine hc.perm (List.Perm.append_left _ ?_)
    rw [frameRefs_append, List.append_assoc,
      show frameRefs ([⟨name, tx.current⟩] : List (SavepointFrame κ PMap)) = tx.current.refs from
        List.append_nil _]
    exact List.perm_append_comm_assoc ..
  · show List.Forall₂ _ (tx.savepoints ++ [SavepointFrame.mk name tx.current]).reverse _
    rw [List.reverse_append]
    exact .cons ⟨rfl, hcurrent.extends (he _) fun _ ha => ha⟩
      (framesSim_extends hok.sim.stack (he _) fun _ ha => ha)

theorem release_step (src : Option (LeafSource ε ρ)) (hok : BlockOk disk owned h tx b)
    {rest : List (Name × Marked κ (TreeMap ρ))}
    (hframes : tx.savepoints = older ++ newer)
    (hrest : List.Forall₂ (FrameSim disk h) older.reverse rest) :
    BlockStepOk disk owned h (tx.release (nodeTrees src) h older.length).2
      (tx.release (nodeTrees src) h older.length).1 { b with stack := rest } := by
  have htake : tx.savepoints.take older.length = older := by rw [hframes, List.take_left]
  have hheap : (tx.release (nodeTrees src) h older.length).2 = h.dropAll Node.kids (frameRefs newer) := by
    show h.dropAll Node.kids ((ActiveTx.frameTrees (tx.savepoints.drop older.length)).flatMap PMap.refs) = _
    rw [frameTrees_refs, hframes, List.drop_left]
  have hperm : (tx.current.refs ++ (frameRefs tx.savepoints ++ owned)).Perm
      (frameRefs newer ++ (tx.current.refs ++ (frameRefs older ++ owned))) := by
    rw [hframes, frameRefs_append, List.append_assoc]
    exact ((List.perm_append_comm_assoc ..).append_left _).trans (List.perm_append_comm_assoc ..)
  obtain ⟨hc, he⟩ := dropAll_spec h (frameRefs newer) (hok.counted.perm hperm)
  rw [hheap]
  refine ⟨⟨?_, ⟨hok.sim.writable, hok.sim.failed, ?_, ?_⟩⟩, he.mono fun _ ha =>
    List.mem_append_right _ (List.mem_append_right _ ha)⟩
  · show Counted _ _ (tx.current.refs ++ (frameRefs (tx.savepoints.take older.length) ++ owned))
    rwa [htake]
  · exact hok.sim.current.extends he fun _ ha => List.mem_append_left _ ha
  · show List.Forall₂ _ (tx.savepoints.take older.length).reverse _
    rw [htake]
    exact framesSim_extends hrest he fun _ ha =>
      List.mem_append_right _ (List.mem_append_left _ (mem_frameRefs_reverse.mp ha))

theorem rollbackTo_step (src : Option (LeafSource ε ρ)) (hok : BlockOk disk owned h tx b)
    {copy : Name × Marked κ (TreeMap ρ)} {rest : List (Name × Marked κ (TreeMap ρ))}
    (hframes : tx.savepoints = older ++ frame :: newer) (hcopy : FrameSim disk h frame copy)
    (hrest : List.Forall₂ (FrameSim disk h) older.reverse rest) :
    BlockStepOk disk owned h (tx.rollbackTo (nodeTrees src) h older.length).2
      (tx.rollbackTo (nodeTrees src) h older.length).1
      { b with stack := copy :: rest, current := copy.2, failed := false } := by
  have hat : tx.savepoints[older.length]? = some frame := by
    rw [hframes, List.getElem?_append_right le_rfl, Nat.sub_self]
    rfl
  have hcut : tx.savepoints = (older ++ [frame]) ++ newer := by rw [hframes, List.append_assoc]; rfl
  have hlen : older.length + 1 = (older ++ [frame]).length := by simp
  have hperm : (tx.current.refs ++ (frameRefs tx.savepoints ++ owned)).Perm
      (frameRefs newer ++ (tx.current.refs ++ (frameRefs (older ++ [frame]) ++ owned))) := by
    rw [hcut, frameRefs_append _ newer, List.append_assoc]
    exact ((List.perm_append_comm_assoc ..).append_left _).trans (List.perm_append_comm_assoc ..)
  obtain ⟨hc1, he1⟩ := dropAll_spec h (frameRefs newer) (hok.counted.perm hperm)
  have hheld : ∀ a ∈ frame.marked.refs, a ∈ frameRefs (older ++ [frame]) := fun a ha => by
    rw [frameRefs_append]
    exact List.mem_append_right _ (List.mem_append_left _ ha)
  have hframe1 := hcopy.marked.extends he1 fun a ha =>
    List.mem_append_right _ (List.mem_append_left _ (hheld a ha))
  obtain ⟨hc2, he2⟩ := cloneAll_spec hc1 hframe1.alive
  have hc2 : Counted Node.kids ((h.dropAll Node.kids (frameRefs newer)).cloneAll frame.marked.refs)
      (tx.current.refs ++ (frame.marked.refs ++ (frameRefs (older ++ [frame]) ++ owned))) :=
    hc2.perm (List.perm_append_comm_assoc ..)
  obtain ⟨hc3, he3⟩ := dropAll_spec _ tx.current.refs hc2
  have hheap : tx.rollbackTo (nodeTrees src) h older.length =
      ({ tx with savepoints := older ++ [frame], current := frame.marked, failed := false },
        Store.dropAll Node.kids ((h.dropAll Node.kids (frameRefs newer)).cloneAll frame.marked.refs)
          tx.current.refs) := by
    simp only [ActiveTx.rollbackTo, hat]
    rw [hlen, hcut, List.take_left, List.drop_left]
    simp only [nodeTrees, frameTrees_refs, marked_trees_refs]
  have he : Extends Node.kids (frameRefs (older ++ [frame]) ++ owned) h
      (Store.dropAll Node.kids ((h.dropAll Node.kids (frameRefs newer)).cloneAll frame.marked.refs)
        tx.current.refs) :=
    ((he1.mono fun _ ha => List.mem_append_right _ ha).trans (he2 _)).trans
      (he3.mono fun _ ha => List.mem_append_right _ ha)
  have hframe := hcopy.marked.extends he fun a ha => List.mem_append_left _ (hheld a ha)
  rw [hheap]
  refine ⟨⟨hc3, ⟨hok.sim.writable, rfl, hframe, ?_⟩⟩, he.mono fun _ ha => List.mem_append_right _ ha⟩
  show List.Forall₂ _ (older ++ [frame]).reverse _
  rw [List.reverse_append]
  refine .cons ⟨hcopy.name, hframe⟩ (framesSim_extends hrest he fun a ha => ?_)
  rw [frameRefs_append]
  exact List.mem_append_left _ (List.mem_append_left _ (mem_frameRefs_reverse.mp ha))

/-- A savepoint statement does to the block what it does to the stack. -/
theorem savepointStmt_step (src : Option (LeafSource ε ρ)) (hok : BlockOk disk owned h tx b)
    (op : SavepointOp) (name : Name) :
    (tx.savepointStmt (nodeTrees src) h op name).1 =
        (b.savepoint op name : Except (StmtError ε) Unit × _).1 ∧
      BlockStepOk disk owned h (tx.savepointStmt (nodeTrees src) h op name).2.2
        (tx.savepointStmt (nodeTrees src) h op name).2.1
        (b.savepoint op name : Except (StmtError ε) Unit × _).2 := by
  unfold ActiveTx.savepointStmt CopyBlock.savepoint
  by_cases hrefused : tx.failed ∧ op ≠ .rollbackTo
  · rw [if_pos hrefused, if_pos (hok.sim.failed ▸ hrefused)]
    exact ⟨rfl, hok.refl⟩
  · rw [if_neg hrefused, if_neg (hok.sim.failed ▸ hrefused)]
    cases op with
    | define =>
      have hfailed : tx.failed = false := by
        cases hf : tx.failed with
        | false => rfl
        | true => exact absurd ⟨hf, by decide⟩ hrefused
      exact ⟨rfl, define_step src hok hfailed name⟩
    | release =>
      rcases findSavepoint_cases tx name with
        ⟨hnone, hall⟩ | ⟨older, frame, newer, hframes, hname, hnewer, hfind⟩
      · rw [hnone, newest_none hok.sim hall]
        exact ⟨rfl, hok.abort⟩
      · obtain ⟨copy, rest, hnewest, -, hrest⟩ := newest_some hok.sim hframes hname hnewer
        rw [hfind, hnewest]
        exact ⟨rfl, release_step src hok hframes hrest⟩
    | rollbackTo =>
      rcases findSavepoint_cases tx name with
        ⟨hnone, hall⟩ | ⟨older, frame, newer, hframes, hname, hnewer, hfind⟩
      · rw [hnone, newest_none hok.sim hall]
        exact ⟨rfl, hok.abort⟩
      · obtain ⟨copy, rest, hnewest, hcopy, hrest⟩ := newest_some hok.sim hframes hname hnewer
        rw [hfind, hnewest]
        exact ⟨rfl, rollbackTo_step src hok hframes hcopy hrest⟩

end Frames

section Runs

variable {disk : Disk ρ} {owned : List Addr} {attached : ByName (Snapshot κ PMap)}
  {va : ByName (Snapshot κ (TreeMap ρ))} {src : Option (LeafSource ε ρ)}

/-- The rows that a step inserts stay within the record cap. -/
def BlockStep.Fits (src : Option (LeafSource ε ρ)) (attached : ByName (Snapshot κ PMap))
    (tx : ActiveTx κ PMap) (h : Heap ε ρ) : BlockStep ρ κ → Prop
  | .statement stmt => Marked.WritesFit (nodeTrees src) attached stmt.writes tx.current h
  | .savepoint _ _ => True

theorem execute_step (hsrc : SourceOk disk src) {h : Heap ε ρ} {tx : ActiveTx κ PMap}
    {b : CopyBlock κ ρ} (hatt : AttachedOk disk owned h attached va) (hok : BlockOk disk owned h tx b)
    {stmt : Statement ρ κ}
    (hfits : Marked.WritesFit (nodeTrees src) attached stmt.writes tx.current h) :
    ∃ b', Told disk (fun faults => b.execute va faults stmt)
        (tx.execute (nodeTrees src) attached h stmt).1 b' ∧
      BlockStepOk disk owned h (tx.execute (nodeTrees src) attached h stmt).2.2
        (tx.execute (nodeTrees src) attached h stmt).2.1 b' := by
  unfold ActiveTx.execute CopyBlock.execute
  rw [← hok.sim.failed, ← hok.sim.writable]
  cases hfailed : tx.failed with
  | true => exact ⟨b, Told.nothing fun _ => rfl, hok.refl⟩
  | false =>
    by_cases hrefused : (stmt.isWrite && !tx.writable) = true
    · simp only [hrefused, if_true, Bool.false_eq_true, if_false]
      exact ⟨b.abort, Told.nothing fun _ => rfl, hok.abort⟩
    · have hcurrent := hok.sim.current
      rw [hfailed] at hcurrent
      have hatt' : AttachedOk disk (frameRefs tx.savepoints ++ owned) h attached va :=
        ⟨hatt.sim, fun a ha => List.mem_append_right _ (hatt.held a ha)⟩
      obtain ⟨v', htold, hstep⟩ := statement_step hsrc hatt' ⟨hok.counted, hcurrent⟩ hfits
      simp only [hrefused, Bool.false_eq_true, if_false]
      revert htold hstep
      generalize stmt.run (nodeTrees src) attached tx.current h = r
      obtain ⟨res, m', h'⟩ := r
      intro htold hstep
      refine ⟨⟨tx.writable, !res.isOk, v', b.stack⟩, htold.map fun faults faults' hf => by rw [hf],
        ⟨⟨hstep.counted, ⟨rfl, rfl, ?_, ?_⟩⟩, ?_⟩⟩
      · exact hstep.sim.imp fun hwhole => by simpa using hwhole
      · exact framesSim_extends hok.sim.stack hstep.keeps fun _ ha =>
          List.mem_append_left _ (mem_frameRefs_reverse.mp ha)
      · exact hstep.keeps.mono fun _ ha => List.mem_append_right _ ha

theorem step_spec (hsrc : SourceOk disk src) {h : Heap ε ρ} {tx : ActiveTx κ PMap}
    {b : CopyBlock κ ρ} (hatt : AttachedOk disk owned h attached va) (hok : BlockOk disk owned h tx b)
    {s : BlockStep ρ κ} (hfits : s.Fits src attached tx h) :
    ∃ b', Told disk (fun faults => b.step va faults s) (tx.step (nodeTrees src) attached h s).1 b' ∧
      BlockStepOk disk owned h (tx.step (nodeTrees src) attached h s).2.2
        (tx.step (nodeTrees src) attached h s).2.1 b' := by
  cases s with
  | statement stmt => exact execute_step hsrc hatt hok hfits
  | savepoint op name =>
    obtain ⟨hres, hstep⟩ := savepointStmt_step src hok op name
    refine ⟨_, Told.nothing fun faults => ?_, hstep⟩
    simp only [CopyBlock.step, ActiveTx.step, hres]

/-- The rows that a run inserts stay within the record cap. -/
def RunFits (src : Option (LeafSource ε ρ)) (attached : ByName (Snapshot κ PMap)) :
    List (BlockStep ρ κ) → ActiveTx κ PMap → Heap ε ρ → Prop
  | [], _, _ => True
  | s :: steps, tx, h =>
    s.Fits src attached tx h ∧ RunFits src attached steps (tx.step (nodeTrees src) attached h s).2.1
      (tx.step (nodeTrees src) attached h s).2.2

theorem run_spec (hsrc : SourceOk disk src) (steps : List (BlockStep ρ κ)) :
    ∀ {h : Heap ε ρ} {tx : ActiveTx κ PMap} {b : CopyBlock κ ρ},
    AttachedOk disk owned h attached va → BlockOk disk owned h tx b → RunFits src attached steps tx h →
    ∃ b', Told disk (fun faults => b.run va steps faults) (tx.run (nodeTrees src) attached steps h).1 b' ∧
      BlockStepOk disk owned h (tx.run (nodeTrees src) attached steps h).2.2
        (tx.run (nodeTrees src) attached steps h).2.1 b' := by
  induction steps with
  | nil => exact fun hatt hok _ => ⟨_, Told.nothing fun _ => rfl, hok.refl⟩
  | cons s steps ih =>
    intro h tx b hatt hok hfits
    obtain ⟨b', htold, hstep⟩ := step_spec hsrc hatt hok hfits.1
    obtain ⟨b'', htold', hnext⟩ := ih (hatt.extends hstep.keeps) hstep.toBlockOk hfits.2
    refine ⟨b'', ?_, ⟨hnext.toBlockOk, hstep.keeps.trans hnext.keeps⟩⟩
    have hboth : Told disk (fun faults => ((tx.step (nodeTrees src) attached h s).1
        :: (b'.run va steps faults).1, (b'.run va steps faults).2))
        (tx.run (nodeTrees src) attached (s :: steps) h).1 b'' :=
      htold'.map fun faults faults' hf => by
        rw [hf]
        rfl
    refine htold.bind hboth fun faults faults' hf => ?_
    have hf : b.step va faults s = _ := hf
    simp only [CopyBlock.run, hf]

end Runs

/-- A snapshot, with something else in the place of each tree. -/
def Snapshot.mapTrees {τ α : Type} (f : τ → α) (s : Snapshot κ τ) : Snapshot κ α :=
  { s with
    stores := mapValues (fun st => { st with rows := f st.rows }) s.stores
    indexStores := mapValues (fun st => { st with rows := f st.rows }) s.indexStores }

def Marked.mapTrees {τ α : Type} (f : τ → α) (m : Marked κ τ) : Marked κ α where
  toMarks := m.toMarks
  working := m.working.mapTrees f
  tempWorking := m.tempWorking.mapTrees f
  attachWorking := mapValues (Snapshot.mapTrees f) m.attachWorking

/-- A state, read by a source whose loads succeed. -/
def Marked.read (m : Marked κ PMap) (src : Option (LeafSource ε ρ)) (h : Heap ε ρ) :
    Marked κ (Except (Fault ε) (List (Bytes × ρ))) :=
  m.mapTrees fun t => t.iter src h

/-- The rows of a state of values. -/
def Marked.rows (m : Marked κ (TreeMap ρ)) : Marked κ (Except (Fault ε) (List (Bytes × ρ))) :=
  m.mapTrees fun t => .ok (mapValues Rec.row t.contents)

section Reads

variable {whole : Bool} {disk : Disk ρ} {h : Heap ε ρ} {src : Option (LeafSource ε ρ)}

theorem storesSim_read (hsrc : Serves disk src) {stores : ByName (TableStore PMap)}
    {v : ByName (TableStore (TreeMap ρ))} (hs : Rel (StoreSim whole disk h) stores v) :
    mapValues (fun st => { st with rows := st.rows.iter src h }) stores =
      mapValues (fun st => { st with rows := .ok (mapValues Rec.row st.rows.contents) }) v := by
  refine hs.mapValues_eq fun st w hst => ?_
  rw [hst.tree.iter hsrc, hst.nextRowid, hst.cap, hst.shape]

theorem SnapshotSim.read (hsrc : Serves disk src) {s : Snapshot κ PMap} {v : Snapshot κ (TreeMap ρ)}
    (hs : SnapshotSim whole disk h s v) :
    (s.mapTrees fun t => t.iter src h) = v.mapTrees fun t => .ok (mapValues Rec.row t.contents) := by
  have hstores := storesSim_read hsrc hs.stores
  have hindex := storesSim_read hsrc hs.indexStores
  have hcatalog := hs.catalog
  simp only [Snapshot.catalog, Snapshot.mk.injEq] at hcatalog
  simp only [Snapshot.mapTrees, hstores, hindex, hcatalog]

theorem MarkedSim.read (hsrc : Serves disk src) {m : Marked κ PMap} {v : Marked κ (TreeMap ρ)}
    (hs : MarkedSim whole disk h m v) : m.read src h = v.rows := by
  simp only [Marked.read, Marked.rows, Marked.mapTrees, hs.marks, hs.working.read hsrc,
    hs.tempWorking.read hsrc]
  rw [hs.attachWorking.mapValues_eq fun _ _ hsim => hsim.read hsrc]

end Reads

/-- `ActiveTx::open`, over values. -/
def CopyBlock.open (writable : Bool) (committed temp : Snapshot κ (TreeMap ρ))
    (seq : List (Name × Int)) (lastName : Option Name) : CopyBlock κ ρ :=
  ⟨writable, false, ⟨⟨false, false, ∅, seq, lastName⟩, committed, temp, []⟩, []⟩

/-- A block reads as its copies do: its own state, its flag, and every savepoint, newest first. -/
structure ReadsAsCopies (src : Option (LeafSource ε ρ)) (h : Heap ε ρ) (tx : ActiveTx κ PMap)
    (b : CopyBlock κ ρ) : Prop where
  writable : tx.writable = b.writable
  failed : tx.failed = b.failed
  current : tx.current.read src h = b.current.rows
  savepoints : tx.savepoints.reverse.map (fun f => (f.name, f.marked.read src h)) =
    b.stack.map fun copy => (copy.1, copy.2.rows)

section Blocks

variable {disk : Disk ρ} {owned : List Addr} {h : Heap ε ρ} {attached : ByName (Snapshot κ PMap)}
  {va : ByName (Snapshot κ (TreeMap ρ))} {src : Option (LeafSource ε ρ)}

theorem BlockSim.read {tx : ActiveTx κ PMap} {b : CopyBlock κ ρ} (hs : BlockSim disk h tx b)
    (hsrc : Serves disk src) : ReadsAsCopies src h tx b where
  writable := hs.writable
  failed := hs.failed
  current := hs.current.read hsrc
  savepoints := by
    have hstack := hs.stack
    generalize tx.savepoints.reverse = frames at hstack ⊢
    generalize b.stack = copies at hstack ⊢
    induction hstack with
    | nil => rfl
    | cons hframe _ ih => rw [List.map_cons, List.map_cons, ih, hframe.name, hframe.marked.read hsrc]

/-- A block that was just opened is as its copies say. -/
theorem open_ok (src : Option (LeafSource ε ρ)) {committed temp : Snapshot κ PMap}
    {vc vt : Snapshot κ (TreeMap ρ)} (hcounted : Counted Node.kids h owned)
    (hcommitted : SnapshotSim true disk h committed vc) (htemp : SnapshotSim true disk h temp vt)
    (writable : Bool) (seq : List (Name × Int)) (lastName : Option Name) :
    BlockStepOk disk owned h (ActiveTx.open (nodeTrees src) writable committed temp seq lastName h).2
      (ActiveTx.open (nodeTrees src) writable committed temp seq lastName h).1
      (CopyBlock.open writable vc vt seq lastName) := by
  have halive : ∀ a ∈ committed.refs ++ temp.refs, ∃ c, h.cell a = some c := fun a ha => by
    cases List.mem_append.mp ha with
    | inl ha => exact hcommitted.alive a ha
    | inr ha => exact htemp.alive a ha
  obtain ⟨hc, he⟩ := cloneAll_spec hcounted halive
  have hheap : (ActiveTx.open (nodeTrees src) writable committed temp seq lastName h).2
      = h.cloneAll (committed.refs ++ temp.refs) := by
    rw [← trees_refs, ← trees_refs, ← List.flatMap_append]
    rfl
  rw [hheap]
  refine ⟨⟨?_, ⟨rfl, rfl, ⟨rfl, hcommitted.extends (he _) fun _ ha => ha,
    htemp.extends (he _) fun _ ha => ha, List.Pairwise.nil, .nil⟩, .nil⟩⟩, he _⟩
  show Counted _ _ ((committed.refs ++ (temp.refs ++ [])) ++ ([] ++ owned))
  rw [List.append_nil, List.nil_append]
  exact hc

/-- In a block that was opened on committed snapshots, any statements, savepoints, releases and rollbacks
    return what they return over a stack of whole copies, and leave a block that reads as the stack. The
    copies are told which edits a page fails to load in, and of none when nothing is on disk. -/
theorem savepoints_are_copies (hsrc : SourceOk disk src) {committed temp : Snapshot κ PMap}
    {vc vt : Snapshot κ (TreeMap ρ)} (hcounted : Counted Node.kids h owned)
    (hcommitted : SnapshotSim true disk h committed vc) (htemp : SnapshotSim true disk h temp vt)
    (hatt : AttachedOk disk owned h attached va) (writable : Bool) (seq : List (Name × Int))
    (lastName : Option Name) (steps : List (BlockStep ρ κ))
    (hfits : RunFits src attached steps
      (ActiveTx.open (nodeTrees src) writable committed temp seq lastName h).1
      (ActiveTx.open (nodeTrees src) writable committed temp seq lastName h).2) :
    let tx := ActiveTx.open (nodeTrees src) writable committed temp seq lastName h
    let r := tx.1.run (nodeTrees src) attached steps tx.2
    ∃ faults : List (Option (Failure ε)), (∀ f, some f ∈ faults → HasPages disk) ∧
      let r' := CopyBlock.run va steps (CopyBlock.open writable vc vt seq lastName) faults
      r.1 = r'.1 ∧ BlockSim disk r.2.2 r.2.1 r'.2.1 ∧
        ∀ served, Serves disk served → ReadsAsCopies served r.2.2 r.2.1 r'.2.1 := by
  have hopen := open_ok src hcounted hcommitted htemp writable seq lastName
  obtain ⟨b, ⟨told, hpages, hrun⟩, hstep⟩ :=
    run_spec hsrc steps (hatt.extends hopen.keeps) hopen.toBlockOk hfits
  refine ⟨told, hpages, ?_⟩
  have htold := hrun []
  rw [List.append_nil] at htold
  dsimp only at htold ⊢
  rw [htold]
  exact ⟨rfl, hstep.sim, fun served hserves => hstep.sim.read hserves⟩

end Blocks

/-! An account is opened, and what is done to the accounts after a savepoint is taken back. -/

def emptySnapshot (τ : Type) : Snapshot Unit τ := ⟨0, 0, [], [], [], [], [], [], [], [], none⟩

def accounts : Table Unit := ⟨[97], [], [], [], ()⟩

def writing (writes : List (Mutation Nat Unit)) : BlockStep Nat Unit :=
  .statement ⟨true, writes.map fun w => (.main, w), false, [], [], none⟩

def accountSteps : List (BlockStep Nat Unit) :=
  [writing [.putTable accounts (Cap.plain 256) ⟨0, 0⟩, .edit .table [97] (.insert [1] ⟨10, 20⟩)],
    .savepoint .define [115], writing [.edit .table [97] (.insert [2] ⟨20, 20⟩)],
    .savepoint .rollbackTo [115]]

theorem emptySnapshot_sim : SnapshotSim true noDisk (⟨[]⟩ : Heap Unit Nat) (emptySnapshot PMap)
    (emptySnapshot (TreeMap Nat)) := ⟨rfl, .nil, .nil, .nil, .nil⟩

theorem accountSteps_fit : RunFits none [] accountSteps
    (ActiveTx.open (nodeTrees none) true (emptySnapshot PMap) (emptySnapshot PMap) [] none
      (⟨[]⟩ : Heap Unit Nat)).1
    (ActiveTx.open (nodeTrees none) true (emptySnapshot PMap) (emptySnapshot PMap) [] none
      (⟨[]⟩ : Heap Unit Nat)).2 := by
  refine ⟨⟨fun _ _ => trivial, fun _ => ⟨?_, fun _ => trivial⟩⟩, trivial, ⟨?_, fun _ => trivial⟩,
    trivial, trivial⟩
  · intro s hs
    cases hs
    intro st hst
    cases hst
    exact ⟨.inl rfl, by decide⟩
  · intro s hs
    cases hs
    intro st hst
    cases hst
    exact ⟨.inl rfl, by decide⟩

theorem savepoints_are_copies_accounts :
    let tx := ActiveTx.open (nodeTrees none) true (emptySnapshot PMap) (emptySnapshot PMap) [] none
      (⟨[]⟩ : Heap Unit Nat)
    let r := tx.1.run (nodeTrees none) [] accountSteps tx.2
    ∃ faults : List (Option (Failure Unit)), (∀ f, some f ∈ faults → HasPages (noDisk : Disk Nat)) ∧
      let r' := CopyBlock.run [] accountSteps
        (CopyBlock.open true (emptySnapshot _) (emptySnapshot _) [] none) faults
      r.1 = r'.1 ∧ BlockSim noDisk r.2.2 r.2.1 r'.2.1 ∧
        ∀ served, Serves noDisk served → ReadsAsCopies served r.2.2 r.2.1 r'.2.1 := by
  have hcounted : Counted Node.kids (⟨[]⟩ : Heap Unit Nat) [] := fun _ => rfl
  exact savepoints_are_copies (noDisk_sourceOk none) hcounted emptySnapshot_sim emptySnapshot_sim
    ⟨.nil, fun _ ha => (by cases ha)⟩ true [] none accountSteps accountSteps_fit

end Jed.Txn
