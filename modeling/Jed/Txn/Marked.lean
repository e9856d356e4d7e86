import Jed.Txn.Block
import Jed.Txn.Writes

/-!
# A block's state without sharing

The state that a block works on and that its savepoints mark, over trees that share nodes and over trees
that are values.
-/

namespace Jed.Txn

open Arc PMap SortedMap

variable {ε ρ κ : Type}

/-- The references that attachments hold. -/
def attachRefs (m : ByName (Snapshot κ PMap)) : List Addr := (m.map Prod.snd).flatMap Snapshot.refs

/-- The references that a state holds. -/
def Marked.refs (m : Marked κ PMap) : List Addr :=
  m.working.refs ++ (m.tempWorking.refs ++ attachRefs m.attachWorking)

/-- Those of them that are not of one database. -/
def Marked.othersRefs (m : Marked κ PMap) : Database → List Addr
  | .main => m.tempWorking.refs ++ attachRefs m.attachWorking
  | .temp => m.working.refs ++ attachRefs m.attachWorking
  | .attached name => m.working.refs ++ (m.tempWorking.refs ++ attachRefs (erase name m.attachWorking))

theorem trees_refs (s : Snapshot κ PMap) : s.trees.flatMap PMap.refs = s.refs := by
  simp only [Snapshot.trees, Snapshot.refs, refsOf, List.flatMap_append, List.flatMap_map]

theorem marked_trees_refs (m : Marked κ PMap) : m.trees.flatMap PMap.refs = m.refs := by
  simp only [Marked.trees, Marked.refs, attachRefs, List.flatMap_append, List.flatMap_assoc,
    List.flatMap_map, trees_refs]

theorem snap_refs {m : Marked κ PMap} (hsorted : Sorted m.attachWorking) {d : Database}
    {s : Snapshot κ PMap} (hs : m.snap? d = some s) : m.refs.Perm (s.refs ++ m.othersRefs d) := by
  cases d with
  | main =>
    cases hs
    exact .refl _
  | temp =>
    cases hs
    rw [Marked.refs, Marked.othersRefs, ← List.append_assoc, ← List.append_assoc]
    exact List.perm_append_comm.append_right _
  | attached name =>
    have hs : SortedMap.get name m.attachWorking = some s := hs
    have hperm := (erase_perm hsorted name).flatMap_right Snapshot.refs
    rw [hs] at hperm
    have hperm : (attachRefs m.attachWorking).Perm (s.refs ++ attachRefs (erase name m.attachWorking)) :=
      hperm
    rw [Marked.refs, Marked.othersRefs]
    refine ((hperm.append_left _).append_left _).trans ?_
    rw [← List.append_assoc, ← List.append_assoc, ← List.append_assoc, ← List.append_assoc]
    refine List.Perm.append_right _ ?_
    rw [List.append_assoc s.refs]
    exact List.perm_append_comm

theorem absent_refs {m : Marked κ PMap} (hsorted : Sorted m.attachWorking) {d : Database}
    (hs : m.snap? d = none) : m.refs.Perm (m.othersRefs d) := by
  cases d with
  | main => cases hs
  | temp => cases hs
  | attached name =>
    have hs : SortedMap.get name m.attachWorking = none := hs
    have hperm := (erase_perm hsorted name).flatMap_right Snapshot.refs
    rw [hs] at hperm
    exact (hperm.append_left _).append_left _

theorem setSnap_refs {m : Marked κ PMap} (hsorted : Sorted m.attachWorking) (s : Snapshot κ PMap)
    (d : Database) : (m.setSnap s d).refs.Perm (s.refs ++ m.othersRefs d) := by
  cases d with
  | main => exact .refl _
  | temp =>
    rw [Marked.refs, Marked.othersRefs, ← List.append_assoc, ← List.append_assoc]
    exact List.perm_append_comm.append_right _
  | attached name =>
    have hperm : (attachRefs (SortedMap.insert name s m.attachWorking)).Perm
        (s.refs ++ attachRefs (erase name m.attachWorking)) :=
      (insert_perm_erase hsorted name s).flatMap_right Snapshot.refs
    rw [Marked.refs, Marked.othersRefs]
    refine ((hperm.append_left _).append_left _).trans ?_
    show (m.working.refs ++ (m.tempWorking.refs ++ (s.refs ++ _))).Perm _
    rw [← List.append_assoc, ← List.append_assoc, ← List.append_assoc, ← List.append_assoc]
    refine List.Perm.append_right _ ?_
    rw [List.append_assoc s.refs]
    exact List.perm_append_comm

/-- A state is as a state of values says. -/
structure MarkedSim (whole : Bool) (disk : Disk ρ) (h : Heap ε ρ) (m : Marked κ PMap)
    (v : Marked κ (TreeMap ρ)) : Prop where
  marks : m.toMarks = v.toMarks
  working : SnapshotSim whole disk h m.working v.working
  tempWorking : SnapshotSim whole disk h m.tempWorking v.tempWorking
  attachSorted : Sorted m.attachWorking
  attachWorking : Rel (SnapshotSim whole disk h) m.attachWorking v.attachWorking

/-- The same, next to the references `owned` by others. -/
structure MarkedOk (whole : Bool) (disk : Disk ρ) (owned : List Addr) (h : Heap ε ρ)
    (m : Marked κ PMap) (v : Marked κ (TreeMap ρ)) : Prop where
  counted : Counted Node.kids h (m.refs ++ owned)
  sim : MarkedSim whole disk h m v

/-- What writes to a state leave. -/
structure MarkedStep (whole : Bool) (disk : Disk ρ) (owned : List Addr) (h h' : Heap ε ρ)
    (m : Marked κ PMap) (v : Marked κ (TreeMap ρ)) : Prop extends MarkedOk whole disk owned h' m v where
  keeps : Extends Node.kids owned h h'

/-- The committed snapshots of the attachments, which others hold. -/
structure AttachedOk (disk : Disk ρ) (owned : List Addr) (h : Heap ε ρ)
    (attached : ByName (Snapshot κ PMap)) (v : ByName (Snapshot κ (TreeMap ρ))) : Prop where
  sim : Rel (SnapshotSim true disk h) attached v
  held : ∀ a ∈ attachRefs attached, a ∈ owned

section States

variable {whole : Bool} {disk : Disk ρ} {h h' h'' : Heap ε ρ} {owned live : List Addr}
  {m m' : Marked κ PMap} {v v' : Marked κ (TreeMap ρ)} {attached : ByName (Snapshot κ PMap)}
  {va : ByName (Snapshot κ (TreeMap ρ))}

theorem attachSim_extends {a : ByName (Snapshot κ PMap)} {b : ByName (Snapshot κ (TreeMap ρ))}
    (hs : Rel (SnapshotSim whole disk h) a b) (he : Extends Node.kids live h h')
    (hl : ∀ x ∈ attachRefs a, x ∈ live) : Rel (SnapshotSim whole disk h') a b :=
  hs.mono fun _ _ hmem hsim => hsim.extends he fun _ hx =>
    hl _ (List.mem_flatMap.mpr ⟨_, List.mem_map_of_mem hmem, hx⟩)

theorem AttachedOk.extends (ha : AttachedOk disk owned h attached va)
    (he : Extends Node.kids owned h h') : AttachedOk disk owned h' attached va :=
  ⟨attachSim_extends ha.sim he ha.held, ha.held⟩

theorem MarkedSim.extends (hs : MarkedSim whole disk h m v) (he : Extends Node.kids live h h')
    (hl : ∀ a ∈ m.refs, a ∈ live) : MarkedSim whole disk h' m v where
  marks := hs.marks
  working := hs.working.extends he fun a ha => hl a (List.mem_append_left _ ha)
  tempWorking := hs.tempWorking.extends he fun a ha =>
    hl a (List.mem_append_right _ (List.mem_append_left _ ha))
  attachSorted := hs.attachSorted
  attachWorking := attachSim_extends hs.attachWorking he fun a ha =>
    hl a (List.mem_append_right _ (List.mem_append_right _ ha))

theorem MarkedSim.imp {whole' : Bool} (hs : MarkedSim whole disk h m v) (hweak : whole' → whole) :
    MarkedSim whole' disk h m v where
  marks := hs.marks
  working := hs.working.imp hweak
  tempWorking := hs.tempWorking.imp hweak
  attachSorted := hs.attachSorted
  attachWorking := hs.attachWorking.mono fun _ _ _ hsim => hsim.imp hweak

/-- Every reference that a snapshot holds is to a node. -/
theorem SnapshotSim.alive {s : Snapshot κ PMap} {w : Snapshot κ (TreeMap ρ)}
    (hs : SnapshotSim whole disk h s w) : ∀ a ∈ s.refs, ∃ c, h.cell a = some c := by
  have hstores : ∀ {st : ByName (TableStore PMap)} {w : ByName (TableStore (TreeMap ρ))},
      Rel (StoreSim whole disk h) st w → ∀ a ∈ refsOf (st.map Prod.snd), ∃ c, h.cell a = some c := by
    intro st w hrel
    induction hrel with
    | nil => exact fun a ha => (by cases ha)
    | cons hab _ ih =>
      intro a ha
      rcases List.mem_append.mp ha with ha | ha
      · exact RootRep.alive hab.2.tree ha
      · exact ih a ha
  intro a ha
  rcases List.mem_append.mp ha with ha | ha
  · exact hstores hs.stores a ha
  · exact hstores hs.indexStores a ha

theorem MarkedSim.alive (hs : MarkedSim whole disk h m v) : ∀ a ∈ m.refs, ∃ c, h.cell a = some c := by
  have hattach : ∀ {x : ByName (Snapshot κ PMap)} {w : ByName (Snapshot κ (TreeMap ρ))},
      Rel (SnapshotSim whole disk h) x w → ∀ a ∈ attachRefs x, ∃ c, h.cell a = some c := by
    intro x w hrel
    induction hrel with
    | nil => exact fun a ha => (by cases ha)
    | cons hab _ ih =>
      intro a ha
      rcases List.mem_append.mp ha with ha | ha
      · exact hab.2.alive a ha
      · exact ih a ha
  intro a ha
  rcases List.mem_append.mp ha with ha | ha
  · exact hs.working.alive a ha
  · rcases List.mem_append.mp ha with ha | ha
    · exact hs.tempWorking.alive a ha
    · exact hattach hs.attachWorking a ha

theorem MarkedSim.snap (hs : MarkedSim whole disk h m v) (d : Database) :
    (m.snap? d = none ∧ v.snap? d = none) ∨
      ∃ s w, m.snap? d = some s ∧ v.snap? d = some w ∧ SnapshotSim whole disk h s w := by
  cases d with
  | main => exact .inr ⟨_, _, rfl, rfl, hs.working⟩
  | temp => exact .inr ⟨_, _, rfl, rfl, hs.tempWorking⟩
  | attached name => exact hs.attachWorking.get name

/-- A state that one database is written to. -/
theorem MarkedSim.setSnap {whole' : Bool} {d : Database} {s : Snapshot κ PMap}
    {w : Snapshot κ (TreeMap ρ)} (hs : MarkedSim whole disk h m v) (hweak : whole' → whole)
    (he : Extends Node.kids live h h') (hl : ∀ a ∈ m.othersRefs d, a ∈ live)
    (hnew : SnapshotSim whole' disk h' s w) :
    MarkedSim whole' disk h' (m.setSnap s d) (v.setSnap w d) := by
  cases d with
  | main =>
    refine ⟨hs.marks, hnew, (hs.tempWorking.extends he fun a ha => ?_).imp hweak, hs.attachSorted,
      ((attachSim_extends hs.attachWorking he fun a ha => ?_)).mono fun _ _ _ hsim => hsim.imp hweak⟩
    · exact hl a (List.mem_append_left _ ha)
    · exact hl a (List.mem_append_right _ ha)
  | temp =>
    refine ⟨hs.marks, (hs.working.extends he fun a ha => ?_).imp hweak, hnew, hs.attachSorted,
      ((attachSim_extends hs.attachWorking he fun a ha => ?_)).mono fun _ _ _ hsim => hsim.imp hweak⟩
    · exact hl a (List.mem_append_left _ ha)
    · exact hl a (List.mem_append_right _ ha)
  | attached name =>
    have hother : Rel (SnapshotSim whole' disk h') (erase name m.attachWorking)
        (erase name v.attachWorking) := by
      refine (attachSim_extends (hs.attachWorking.erase name) he fun a ha => ?_).mono
        fun _ _ _ hsim => hsim.imp hweak
      exact hl a (List.mem_append_right _ (List.mem_append_right _ ha))
    have hins := hother.insert name hnew
    rw [insert_erase_self hs.attachSorted,
      insert_erase_self (hs.attachWorking.sorted hs.attachSorted)] at hins
    refine ⟨hs.marks, (hs.working.extends he fun a ha => ?_).imp hweak,
      (hs.tempWorking.extends he fun a ha => ?_).imp hweak, hs.attachSorted.insert name s, hins⟩
    · exact hl a (List.mem_append_left _ ha)
    · exact hl a (List.mem_append_right _ (List.mem_append_left _ ha))

theorem MarkedSim.setDirty (hs : MarkedSim whole disk h m v) (d : Database) :
    MarkedSim whole disk h (m.setDirty d) (v.setDirty d) := by
  have hmarks := hs.marks
  obtain ⟨⟨mainDirty, tempDirty, attachDirty, sessionSeq, sessionLastName⟩, w, t, a⟩ := m
  obtain ⟨marks, w', t', a'⟩ := v
  cases hmarks
  cases d <;> exact ⟨rfl, hs.working, hs.tempWorking, hs.attachSorted, hs.attachWorking⟩

theorem refs_setDirty (m : Marked κ PMap) (d : Database) : (m.setDirty d).refs = m.refs := by
  cases d <;> rfl

theorem MarkedOk.setDirty (hok : MarkedOk whole disk owned h m v) (d : Database) :
    MarkedOk whole disk owned h (m.setDirty d) (v.setDirty d) :=
  ⟨by rw [refs_setDirty]; exact hok.counted, hok.sim.setDirty d⟩

theorem MarkedOk.refl (hok : MarkedOk whole disk owned h m v) : MarkedStep whole disk owned h h m v :=
  ⟨hok, .refl _ _⟩

theorem MarkedStep.imp {whole' : Bool} (hstep : MarkedStep whole disk owned h h' m v)
    (hweak : whole' → whole) : MarkedStep whole' disk owned h h' m v :=
  ⟨⟨hstep.counted, hstep.sim.imp hweak⟩, hstep.keeps⟩

end States

section Writes

variable {disk : Disk ρ} {h : Heap ε ρ} {owned : List Addr} {m : Marked κ PMap}
  {v : Marked κ (TreeMap ρ)} {attached : ByName (Snapshot κ PMap)}
  {va : ByName (Snapshot κ (TreeMap ρ))} {src : Option (LeafSource ε ρ)}

variable (src) in
/-- An attachment's snapshot is cloned when it is first written to. -/
theorem writeSnap_step (hatt : AttachedOk disk owned h attached va) (hok : MarkedOk true disk owned h m v)
    (d : Database) :
    ∃ v', (∀ faults : List (Option (Failure ε)), v.writeSnap treeValues va faults d = (v', faults)) ∧
      MarkedStep true disk owned h (m.writeSnap (nodeTrees src) attached h d).2
        (m.writeSnap (nodeTrees src) attached h d).1 v' := by
  have hdirty : MarkedStep true disk owned h h (m.setDirty d) (v.setDirty d) := (hok.setDirty d).refl
  cases d with
  | main => exact ⟨_, fun _ => rfl, hdirty⟩
  | temp => exact ⟨_, fun _ => rfl, hdirty⟩
  | attached name =>
    unfold Marked.writeSnap
    rcases hok.sim.snap (.attached name) with ⟨hnone, hnone'⟩ | ⟨s, w, hs, hw, -⟩
    · rw [hnone, hnone']
      dsimp only
      rcases hatt.sim.get name with ⟨hgone, hgone'⟩ | ⟨base, w, hbase, hw, hsim⟩
      · rw [hgone, hgone']
        exact ⟨_, fun _ => rfl, hok.refl⟩
      · rw [hbase, hw]
        refine ⟨_, fun _ => rfl, ?_⟩
        have hclone := cloneAll_spec hok.counted hsim.alive
        have hrefs : (nodeTrees src).clone h base.trees = h.cloneAll base.refs := by
          rw [← trees_refs]
          rfl
        dsimp only
        rw [hrefs]
        have hnew : MarkedSim true disk (h.cloneAll base.refs) (m.setSnap base (.attached name))
            (v.setSnap w (.attached name)) :=
          hok.sim.setSnap id (hclone.2 _) (fun _ ha => ha) (hsim.extends (hclone.2 _) fun _ ha => ha)
        refine ⟨MarkedOk.setDirty ⟨?_, hnew⟩ _, hclone.2 _⟩
        refine hclone.1.perm ?_
        rw [← List.append_assoc]
        refine List.Perm.append_right _ ?_
        exact ((absent_refs hok.sim.attachSorted hnone).append_left _).trans
          (setSnap_refs hok.sim.attachSorted base _).symm
    · rw [hs, hw]
      exact ⟨_, fun _ => rfl, hdirty⟩

/-- The write that comes next stays within the record cap. -/
def Marked.WriteFits {τ χ : Type} (ops : TreeOps ε ρ τ χ) (attached : ByName (Snapshot κ τ))
    (m : Marked κ τ) (h : χ) (d : Database) (w : Mutation ρ κ) : Prop :=
  ∀ s, (m.writeSnap ops attached h d).1.snap? d = some s → w.Fits s

theorem write_step (hsrc : SourceOk disk src) (hatt : AttachedOk disk owned h attached va)
    (hok : MarkedOk true disk owned h m v) {d : Database} {w : Mutation ρ κ}
    (hfits : m.WriteFits (nodeTrees src) attached h d w) :
    ∃ v', Told disk (fun faults => v.write treeValues va faults d w)
        (m.write (nodeTrees src) attached h d w).1 v' ∧
      MarkedStep (m.write (nodeTrees src) attached h d w).1.isOk disk owned h
        (m.write (nodeTrees src) attached h d w).2.2 (m.write (nodeTrees src) attached h d w).2.1 v' := by
  obtain ⟨v', hv', hstep⟩ := writeSnap_step src hatt hok d
  unfold Marked.WriteFits at hfits
  simp only [Marked.write, hv']
  revert hstep hfits
  generalize m.writeSnap (nodeTrees src) attached h d = r
  obtain ⟨m', h'⟩ := r
  intro hfits hstep
  rcases hstep.sim.snap d with ⟨hnone, hnone'⟩ | ⟨s, x, hs, hx, hsim⟩
  · simp only [hnone, hnone']
    exact ⟨v', Told.nothing fun _ => rfl, hstep.imp fun hfalse => (by cases hfalse)⟩
  · have hcut := hstep.counted.perm ((snap_refs hstep.sim.attachSorted hs).append_right owned)
    rw [List.append_assoc] at hcut
    obtain ⟨x', htold, hw⟩ := w.apply_writes hsrc ⟨hcut, hsim⟩ (hfits s hs)
    simp only [hs, hx]
    refine ⟨v'.setSnap x' d, htold.map fun faults faults' hf => by rw [hf], ?_⟩
    refine ⟨⟨hw.counted.perm ?_, ?_⟩, ?_⟩
    · rw [← List.append_assoc]
      exact ((setSnap_refs hstep.sim.attachSorted _ d).symm).append_right owned
    · exact hstep.sim.setSnap (fun _ => rfl) hw.keeps (fun _ ha => List.mem_append_left _ ha) hw.sim
    · exact hstep.keeps.trans (hw.keeps.mono fun _ ha => List.mem_append_right _ ha)

/-- The writes of a list, as far as they come, stay within the record cap. -/
def Marked.WritesFit {τ χ : Type} (ops : TreeOps ε ρ τ χ) (attached : ByName (Snapshot κ τ)) :
    List (Database × Mutation ρ κ) → Marked κ τ → χ → Prop
  | [], _, _ => True
  | (d, w) :: ws, m, h =>
    m.WriteFits ops attached h d w ∧
      ((m.write ops attached h d w).1 = .ok () →
        Marked.WritesFit ops attached ws (m.write ops attached h d w).2.1
          (m.write ops attached h d w).2.2)

theorem runWrites_step (hsrc : SourceOk disk src) (ws : List (Database × Mutation ρ κ)) :
    ∀ {h : Heap ε ρ} {m : Marked κ PMap} {v : Marked κ (TreeMap ρ)},
    AttachedOk disk owned h attached va → MarkedOk true disk owned h m v →
    Marked.WritesFit (nodeTrees src) attached ws m h →
    ∃ v', Told disk (fun faults => v.runWrites treeValues va ws faults)
        (m.runWrites (nodeTrees src) attached ws h).1 v' ∧
      MarkedStep (m.runWrites (nodeTrees src) attached ws h).1.isOk disk owned h
        (m.runWrites (nodeTrees src) attached ws h).2.2 (m.runWrites (nodeTrees src) attached ws h).2.1
        v' := by
  induction ws with
  | nil => exact fun hatt hok _ => ⟨_, Told.nothing fun _ => rfl, hok.refl⟩
  | cons e ws ih =>
    obtain ⟨d, w⟩ := e
    intro h m v hatt hok hfits
    obtain ⟨v', htold, hstep⟩ := write_step hsrc hatt hok hfits.1
    have hrest := hfits.2
    simp only [Marked.runWrites]
    revert htold hstep hrest
    generalize m.write (nodeTrees src) attached h d w = r
    obtain ⟨res, m', h'⟩ := r
    intro htold hstep hrest
    cases res with
    | error f => exact ⟨v', htold.map fun faults faults' hf => by rw [hf], hstep⟩
    | ok u =>
      obtain ⟨v'', htold', hnext⟩ := ih (hatt.extends hstep.keeps) hstep.toMarkedOk (hrest rfl)
      have hall : MarkedStep _ disk owned h _ _ v'' :=
        ⟨hnext.toMarkedOk, hstep.keeps.trans hnext.keeps⟩
      exact ⟨v'', htold.bind htold' fun faults faults' hf => by rw [hf], hall⟩

end Writes

end Jed.Txn
