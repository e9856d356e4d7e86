import Jed.Txn.Savepoints

/-!
# Change detection

Whether a commit has anything to write is read off two counters, the default collation, and the roots and
counters of the stores. Every write to a snapshot that leaves the counters leaves the catalog, and a root
that a snapshot shares with another is edited in neither.
-/

namespace Jed.Txn

open Arc PMap SortedMap

variable {ε ρ κ τ χ : Type}

/-- What a snapshot holds beside its trees, its counters and the default collation. -/
def Snapshot.entries (s : Snapshot κ τ) : Snapshot κ Unit :=
  { s.catalog with catGen := 0, dataGen := 0, defaultCollation := none }

/-- What writes may have done to a snapshot: its catalog differs only if a counter has moved. -/
structure Since (base s : Snapshot κ τ) : Prop where
  catGen : base.catGen ≤ s.catGen
  dataGen : base.dataGen ≤ s.dataGen
  same : s.catGen = base.catGen → s.dataGen = base.dataGen → s.entries = base.entries

theorem Since.refl (s : Snapshot κ τ) : Since s s := ⟨le_rfl, le_rfl, fun _ _ => rfl⟩

variable {a b : Snapshot κ τ}

theorem Since.trans {c : Snapshot κ τ} (hab : Since a b) (hbc : Since b c) : Since a c where
  catGen := hab.catGen.trans hbc.catGen
  dataGen := hab.dataGen.trans hbc.dataGen
  same hcat hdata := by
    have hc : b.catGen = a.catGen := le_antisymm (hbc.catGen.trans hcat.le) hab.catGen
    have hd : b.dataGen = a.dataGen := le_antisymm (hbc.dataGen.trans hdata.le) hab.dataGen
    exact (hbc.same (hcat.trans hc.symm) (hdata.trans hd.symm)).trans (hab.same hc hd)

theorem Since.of_catGen (hcat : b.catGen = a.catGen + 1) (hdata : b.dataGen = a.dataGen) : Since a b :=
  ⟨by omega, hdata.ge, fun h => by omega⟩

theorem Since.of_dataGen (hcat : b.catGen = a.catGen) (hdata : b.dataGen = a.dataGen + 1) : Since a b :=
  ⟨hcat.ge, by omega, fun _ h => by omega⟩

theorem Since.of_entries (hcat : b.catGen = a.catGen)
    (hdata : b.dataGen = a.dataGen) (hentries : b.entries = a.entries) : Since a b :=
  ⟨hcat.ge, hdata.ge, fun _ _ => hentries⟩

theorem modifyTable_gens (s : Snapshot κ τ) (key : Name) (f : Table κ → Table κ) :
    (s.modifyTable key f).catGen = s.catGen ∧ (s.modifyTable key f).dataGen = s.dataGen := by
  unfold Snapshot.modifyTable
  cases SortedMap.get key s.tables <;> exact ⟨rfl, rfl⟩

theorem putCollations_gens (loaded : List (Collation κ)) (s : Snapshot κ τ) :
    (loaded.foldl Snapshot.putCollation s).catGen = s.catGen ∧
      (loaded.foldl Snapshot.putCollation s).dataGen = s.dataGen := by
  induction loaded generalizing s with
  | nil => exact ⟨rfl, rfl⟩
  | cons coll loaded ih => exact ih (s.putCollation coll)

theorem storeMut_since (s : Snapshot κ τ) (side : Side) (name : Name) (h : χ)
    (f : TableStore τ → Except (Fault ε) Unit × TableStore τ × χ) :
    Since s (s.storeMut side name h f).2.1 := by
  unfold Snapshot.storeMut
  cases SortedMap.get name (s.side side) with
  | none => exact .refl s
  | some st => cases side <;> exact .of_entries rfl rfl rfl

/-- Every write to a snapshot that leaves both counters leaves the catalog. -/
theorem apply_since (ops : TreeOps ε ρ τ χ) (s : Snapshot κ τ) (h : χ) (m : Mutation ρ κ) :
    Since s (m.apply ops s h).2.1 := by
  cases m with
  | putColumnStatistics table column statistics => exact .of_dataGen rfl rfl
  | markStatisticsStale table => exact .of_dataGen rfl rfl
  | clearStatistics table => exact .of_dataGen rfl rfl
  | clearColumnStatistics table column => exact .of_dataGen rfl rfl
  | putSequence seq => exact .of_dataGen rfl rfl
  | removeSequence key => exact .of_dataGen rfl rfl
  | truncateTable name => exact .of_dataGen rfl rfl
  | putType ty => exact .of_catGen rfl rfl
  | removeType key => exact .of_catGen rfl rfl
  | putView view => exact .of_catGen rfl rfl
  | removeView key => exact .of_catGen rfl rfl
  | remapAlterColumnDependents parent originalToNew pending => exact .of_catGen rfl rfl
  | putTable table cap shape => exact .of_catGen rfl rfl
  | removeTable key => exact .of_catGen rfl rfl
  | setDefaultCollation name => exact .of_entries rfl rfl rfl
  | putIndexStore name cap shape => exact .of_entries rfl rfl rfl
  | removeIndexStore name => exact .of_entries rfl rfl rfl
  | allocRowid side name => exact storeMut_since s side name h _
  | bumpRowidTo side name n => exact storeMut_since s side name h _
  | edit side name e => exact storeMut_since s side name h _
  | repinCollations loaded =>
    obtain ⟨hcat, hdata⟩ := putCollations_gens loaded s
    exact .of_catGen (congrArg (· + 1) hcat) hdata
  | removeForeignKey tableKey fkName =>
    simp only [Mutation.apply, Snapshot.removeForeignKey]
    split
    · exact .refl s
    · have hgens := modifyTable_gens s.bumpCatGen tableKey
      exact .of_catGen (hgens _).1 (hgens _).2
  | setColumnDefaultExpr tableKey column expr =>
    simp only [Mutation.apply, Snapshot.setColumnDefaultExpr]
    split
    · exact .refl s
    · have hgens := modifyTable_gens s.bumpCatGen tableKey
      exact .of_catGen (hgens _).1 (hgens _).2
  | cascadeDroppedUniqueFks parent dropped =>
    simp only [Mutation.apply, Snapshot.cascadeDroppedUniqueFks]
    split
    · exact .refl s
    · exact .of_catGen rfl rfl
  | putIndex tableKey d cap shape =>
    have hgens := modifyTable_gens (s.bumpCatGen.putIndexStore ops d.name cap shape h).1 tableKey
    exact .of_catGen (hgens _).1 (hgens _).2
  | removeIndex tableKey nameKey =>
    have hgens := modifyTable_gens s.bumpCatGen tableKey
    exact .of_catGen (hgens _).1 (hgens _).2
  | alterTableCatalog oldKey table rename indexRename =>
    simp only [Mutation.apply, Snapshot.alterTableCatalog]
    cases rename <;> exact .of_catGen rfl rfl

/-- Whether a database is marked as written to. -/
def Marks.isDirty (m : Marks) : Database → Bool
  | .main => m.mainDirty
  | .temp => m.tempDirty
  | .attached name => name ∈ m.attachDirty

/-- The committed snapshot of a database. -/
def committedOf (committed temp : Snapshot κ τ) (attached : ByName (Snapshot κ τ)) :
    Database → Option (Snapshot κ τ)
  | .main => some committed
  | .temp => some temp
  | .attached name => SortedMap.get name attached

/-- Each snapshot of a state has come from the committed one, and is still that one unless it is marked. -/
def SinceCommitted (base : Database → Option (Snapshot κ τ)) (m : Marked κ τ) : Prop :=
  ∀ d s, m.snap? d = some s →
    ∃ b, base d = some b ∧ Since b s ∧ (m.isDirty d = false → s = b)

section Runs

variable {ops : TreeOps ε ρ τ χ} {committed temp : Snapshot κ τ} {attached : ByName (Snapshot κ τ)}
  {base : Database → Option (Snapshot κ τ)} {m : Marked κ τ}

theorem snap_setSnap (m : Marked κ τ) (s : Snapshot κ τ) (d d' : Database) :
    (m.setSnap s d).snap? d' = if d' = d then some s else m.snap? d' := by
  by_cases heq : d' = d
  · subst heq
    rw [if_pos rfl]
    cases d' with
    | main => rfl
    | temp => rfl
    | attached name => exact (get_insert ..).trans (if_pos rfl)
  · rw [if_neg heq]
    cases d <;> cases d'
    case attached.attached name name' =>
      have hne : name' ≠ name := fun hname => heq (congrArg _ hname)
      exact (get_insert ..).trans (if_neg hne)
    all_goals first | rfl | exact absurd rfl heq

theorem snap_setDirty (m : Marked κ τ) (d d' : Database) : (m.setDirty d).snap? d' = m.snap? d' := by
  cases d <;> cases d' <;> rfl

theorem isDirty_setSnap (m : Marked κ τ) (s : Snapshot κ τ) (d d' : Database) :
    (m.setSnap s d).isDirty d' = m.isDirty d' := by
  cases d <;> cases d' <;> rfl

theorem isDirty_setDirty (m : Marked κ τ) (d : Database) : (m.setDirty d).isDirty d = true := by
  cases d with
  | main => rfl
  | temp => rfl
  | attached name => exact decide_eq_true (Finset.mem_insert_self name m.attachDirty)

theorem isDirty_of_setDirty {m : Marked κ τ} {d d' : Database}
    (hclean : (m.setDirty d).isDirty d' = false) : m.isDirty d' = false := by
  cases d <;> cases d' <;> first | exact hclean | cases hclean | skip
  case attached.attached name name' =>
    have hnot : name' ∉ Insert.insert name m.attachDirty := of_decide_eq_false hclean
    exact decide_eq_false fun hmem => hnot (Finset.mem_insert_of_mem hmem)

theorem SinceCommitted.setDirty (hs : SinceCommitted base m) (d : Database) :
    SinceCommitted base (m.setDirty d) := by
  intro d' s hsnap
  rw [snap_setDirty] at hsnap
  obtain ⟨b, hb, hsince, hclean⟩ := hs d' s hsnap
  exact ⟨b, hb, hsince, fun hdirty => hclean (isDirty_of_setDirty hdirty)⟩

/-- A marked database may be written to. -/
theorem SinceCommitted.setSnap {s' b : Snapshot κ τ} {d : Database} (hs : SinceCommitted base m)
    (hbase : base d = some b) (hsince : Since b s') (hclean : m.isDirty d = false → s' = b) :
    SinceCommitted base (m.setSnap s' d) := by
  intro d' s hsnap
  rw [snap_setSnap] at hsnap
  rw [isDirty_setSnap]
  by_cases heq : d' = d
  · subst heq
    rw [if_pos rfl] at hsnap
    cases hsnap
    exact ⟨b, hbase, hsince, hclean⟩
  · rw [if_neg heq] at hsnap
    exact hs d' s hsnap

variable (ops) in
/-- What a database is once it is to be written to: it has a snapshot only if it is marked. -/
theorem writeSnap_since (h : χ) (d : Database)
    (hs : SinceCommitted (committedOf committed temp attached) m) :
    SinceCommitted (committedOf committed temp attached) (m.writeSnap ops attached h d).1 ∧
      ∀ s, (m.writeSnap ops attached h d).1.snap? d = some s →
        (m.writeSnap ops attached h d).1.isDirty d = true := by
  cases d with
  | main => exact ⟨hs.setDirty _, fun _ _ => isDirty_setDirty m _⟩
  | temp => exact ⟨hs.setDirty _, fun _ _ => isDirty_setDirty m _⟩
  | attached name =>
    unfold Marked.writeSnap
    cases hsnap : m.snap? (.attached name) with
    | some s => exact ⟨hs.setDirty _, fun _ _ => isDirty_setDirty m _⟩
    | none =>
      dsimp only
      cases hbase : SortedMap.get name attached with
      | none =>
        refine ⟨hs, fun s hsome => ?_⟩
        rw [hsnap] at hsome
        cases hsome
      | some b =>
        refine ⟨(hs.setSnap (d := .attached name) hbase (.refl b) fun _ => rfl).setDirty _, fun _ _ => ?_⟩
        exact isDirty_setDirty (m.setSnap b _) _

variable (ops) in
theorem write_since (h : χ) (d : Database) (w : Mutation ρ κ)
    (hs : SinceCommitted (committedOf committed temp attached) m) :
    SinceCommitted (committedOf committed temp attached) (m.write ops attached h d w).2.1 := by
  obtain ⟨hopen, hdirty⟩ := writeSnap_since ops h d hs
  simp only [Marked.write]
  revert hopen hdirty
  generalize m.writeSnap ops attached h d = r
  obtain ⟨m', h'⟩ := r
  intro hopen hdirty
  dsimp only
  cases hsnap : m'.snap? d with
  | none => exact hopen
  | some s =>
    obtain ⟨b, hbase, hsince, -⟩ := hopen d s hsnap
    exact hopen.setSnap hbase (hsince.trans (apply_since ops s h' w))
      fun hclean => absurd ((hdirty s hsnap).symm.trans hclean) (by decide)

variable (ops) in
theorem runWrites_since (ws : List (Database × Mutation ρ κ)) (h : χ)
    (hs : SinceCommitted (committedOf committed temp attached) m) :
    SinceCommitted (committedOf committed temp attached) (m.runWrites ops attached ws h).2.1 := by
  induction ws generalizing m h with
  | nil => exact hs
  | cons e ws ih =>
    have hwrite := write_since ops h e.1 e.2 hs
    simp only [Marked.runWrites]
    revert hwrite
    generalize m.write ops attached h e.1 e.2 = r
    obtain ⟨res, m', h'⟩ := r
    intro hwrite
    cases res with
    | error f => exact hwrite
    | ok u => exact ih h' hwrite

theorem statement_since (stmt : Statement ρ κ) (h : χ)
    (hs : SinceCommitted (committedOf committed temp attached) m) :
    SinceCommitted (committedOf committed temp attached) (stmt.run ops attached m h).2.1 := by
  have hwrites := runWrites_since ops stmt.writes h hs
  simp only [Statement.run]
  revert hwrites
  generalize m.runWrites ops attached stmt.writes h = r
  obtain ⟨res, m', h'⟩ := r
  intro hwrites
  cases res with
  | error f => exact hwrites
  | ok u =>
    dsimp only
    split
    · exact hwrites
    · have hflush := runWrites_since ops (stmt.pendingSeq.map fun e => (e.1, .putSequence e.2)) h'
        hwrites
      simp only [Statement.flushPendingSequences]
      revert hflush
      generalize m'.runWrites ops attached _ h' = r
      obtain ⟨res, m'', h''⟩ := r
      intro hflush
      cases res <;> exact hflush

/-- The state of a block and all that its savepoints mark. -/
structure BlockSince (base : Database → Option (Snapshot κ τ)) (tx : ActiveTx κ τ) : Prop where
  current : SinceCommitted base tx.current
  savepoints : ∀ frame ∈ tx.savepoints, SinceCommitted base frame.marked

variable {tx : ActiveTx κ τ}

theorem savepointStmt_since (h : χ) (op : SavepointOp) (name : Name)
    (hs : BlockSince base tx) : BlockSince base (tx.savepointStmt ops h op name).2.1 := by
  unfold ActiveTx.savepointStmt
  split
  · exact hs
  · cases op with
    | define =>
      refine ⟨hs.current, fun frame hframe => ?_⟩
      cases List.mem_append.mp hframe with
      | inl hframe => exact hs.savepoints frame hframe
      | inr hframe =>
        rw [List.mem_singleton.mp hframe]
        exact hs.current
    | release =>
      dsimp only
      cases tx.findSavepoint name with
      | none => exact ⟨hs.current, hs.savepoints⟩
      | some i => exact ⟨hs.current, fun frame hframe => hs.savepoints frame (List.mem_of_mem_take hframe)⟩
    | rollbackTo =>
      dsimp only
      cases tx.findSavepoint name with
      | none => exact ⟨hs.current, hs.savepoints⟩
      | some i =>
        unfold ActiveTx.rollbackTo
        cases hat : tx.savepoints[i]? with
        | none =>
          simp only [hat]
          exact hs
        | some frame =>
          simp only [hat]
          exact ⟨hs.savepoints frame (List.mem_of_getElem? hat),
            fun frame hframe => hs.savepoints frame (List.mem_of_mem_take hframe)⟩

theorem step_since (h : χ) (s : BlockStep ρ κ) (hs : BlockSince (committedOf committed temp attached) tx) :
    BlockSince (committedOf committed temp attached) (tx.step ops attached h s).2.1 := by
  cases s with
  | savepoint op name => exact savepointStmt_since h op name hs
  | statement stmt =>
    simp only [ActiveTx.step, ActiveTx.execute]
    split
    · exact hs
    · split
      · exact ⟨hs.current, hs.savepoints⟩
      · exact ⟨statement_since stmt h hs.current, hs.savepoints⟩

variable (ops) in
theorem run_since (steps : List (BlockStep ρ κ)) (h : χ)
    (hs : BlockSince (committedOf committed temp attached) tx) :
    BlockSince (committedOf committed temp attached) (tx.run ops attached steps h).2.1 := by
  induction steps generalizing tx h with
  | nil => exact hs
  | cons s steps ih => exact ih _ (step_since h s hs)

variable (ops) in
theorem open_since (writable : Bool) (seq : List (Name × Int)) (lastName : Option Name) (h : χ) :
    BlockSince (committedOf committed temp attached)
      (ActiveTx.open ops writable committed temp seq lastName h).1 := by
  refine ⟨fun d s hsnap => ?_, fun frame hframe => (by cases hframe)⟩
  cases d with
  | main =>
    cases hsnap
    exact ⟨_, rfl, .refl _, fun _ => rfl⟩
  | temp =>
    cases hsnap
    exact ⟨_, rfl, .refl _, fun _ => rfl⟩
  | attached name => cases hsnap

end Runs

section Images

/-- What of a snapshot goes to disk, its trees read. -/
structure Image (ε ρ κ : Type) where
  entries : Snapshot κ Unit
  defaultCollation : Option Name
  stores : ByName (Int × Except (Fault ε) (List (Bytes × ρ)))
  indexStores : ByName (Int × Except (Fault ε) (List (Bytes × ρ)))

/-- The counter and the rows of each store. -/
def storeImages (src : Option (LeafSource ε ρ)) (h : Heap ε ρ) (stores : ByName (TableStore PMap)) :
    ByName (Int × Except (Fault ε) (List (Bytes × ρ))) :=
  mapValues (fun st => (st.nextRowid, st.rows.iter src h)) stores

def Snapshot.image (src : Option (LeafSource ε ρ)) (h : Heap ε ρ) (s : Snapshot κ PMap) : Image ε ρ κ :=
  ⟨s.entries, s.defaultCollation, storeImages src h s.stores, storeImages src h s.indexStores⟩

variable {disk : Disk ρ} {src : Option (LeafSource ε ρ)} {whole whole' : Bool} {h h' : Heap ε ρ}

theorem iter_of_root (src : Option (LeafSource ε ρ)) (h : Heap ε ρ) {m m' : PMap} (hroot : m.root = m'.root) :
    m.iter src h = m'.iter src h := by
  obtain ⟨root, count⟩ := m
  obtain ⟨root', count'⟩ := m'
  obtain rfl : root = root' := hroot
  cases root <;> rfl

/-- Stores that no change is seen in hold the same. -/
theorem storeImages_of_unchanged {stores base : ByName (TableStore PMap)} (hsorted : Sorted stores)
    (hbase : Sorted base) (hsame : Snapshot.storesChanged PMap.root stores base = false) :
    storeImages src h stores = storeImages src h base := by
  unfold Snapshot.storesChanged at hsame
  rw [Bool.or_eq_false_iff, bne_eq_false_iff_eq] at hsame
  have hrel : Rel (fun st old : TableStore PMap => st.nextRowid = old.nextRowid ∧ st.rows.root = old.rows.root)
      stores base := by
    refine rel_of_length hsorted hbase hsame.1 fun e he => ?_
    have hone := List.any_eq_false.mp hsame.2 e he
    cases hget : SortedMap.get e.1 base with
    | none =>
      rw [hget] at hone
      exact absurd rfl hone
    | some old =>
      rw [hget] at hone
      refine ⟨old, rfl, ?_⟩
      simpa using hone
  refine hrel.mapValues_eq fun st old hst => ?_
  rw [hst.1, iter_of_root src h hst.2]

theorem image_of_unchanged {s base : Snapshot κ PMap} {v w : Snapshot κ (TreeMap ρ)}
    (hs : SnapshotSim whole disk h s v) (hbase : SnapshotSim whole' disk h base w) (hsince : Since base s)
    (hsame : s.changedSince PMap.root base = false) : s.image src h = base.image src h := by
  simp only [Snapshot.changedSince, Bool.or_eq_false_iff, bne_eq_false_iff_eq] at hsame
  obtain ⟨⟨⟨⟨hcat, hdata⟩, hdefault⟩, hstores⟩, hindex⟩ := hsame
  rw [Snapshot.image, Snapshot.image, hsince.same hcat hdata, hdefault,
    storeImages_of_unchanged hs.storesSorted hbase.storesSorted hstores,
    storeImages_of_unchanged hs.indexSorted hbase.indexSorted hindex]

/-- Trees that are held read the same. -/
theorem SnapshotSim.image_extends {owned : List Addr} {s : Snapshot κ PMap} {v : Snapshot κ (TreeMap ρ)}
    (hsrc : Serves disk src) (hs : SnapshotSim whole disk h s v) (he : Extends Node.kids owned h h')
    (hheld : ∀ a ∈ s.refs, a ∈ owned) : s.image src h' = s.image src h := by
  have hs' := hs.extends he hheld
  have hstores : storeImages src h' s.stores = storeImages src h s.stores :=
    (hs'.stores.mapValues_eq fun st w hst => by rw [hst.tree.iter hsrc, hst.nextRowid]).trans
      (hs.stores.mapValues_eq fun st w hst => by rw [hst.tree.iter hsrc, hst.nextRowid]).symm
  have hindex : storeImages src h' s.indexStores = storeImages src h s.indexStores :=
    (hs'.indexStores.mapValues_eq fun st w hst => by rw [hst.tree.iter hsrc, hst.nextRowid]).trans
      (hs.indexStores.mapValues_eq fun st w hst => by rw [hst.tree.iter hsrc, hst.nextRowid]).symm
  rw [Snapshot.image, Snapshot.image, hstores, hindex]

end Images

section Blocks

variable {disk : Disk ρ} {owned : List Addr} {h : Heap ε ρ} {committed temp : Snapshot κ PMap}
  {vc vt : Snapshot κ (TreeMap ρ)} {attached : ByName (Snapshot κ PMap)}
  {va : ByName (Snapshot κ (TreeMap ρ))} {src : Option (LeafSource ε ρ)}

/-- The committed snapshots, which others hold. -/
structure CommittedOk (disk : Disk ρ) (owned : List Addr) (h : Heap ε ρ) (committed temp : Snapshot κ PMap)
    (attached : ByName (Snapshot κ PMap)) (vc vt : Snapshot κ (TreeMap ρ))
    (va : ByName (Snapshot κ (TreeMap ρ))) : Prop where
  counted : Counted Node.kids h owned
  held : ∀ a ∈ committed.refs ++ temp.refs, a ∈ owned
  main : SnapshotSim true disk h committed vc
  temporary : SnapshotSim true disk h temp vt
  attachments : AttachedOk disk owned h attached va

theorem CommittedOk.base (hok : CommittedOk disk owned h committed temp attached vc vt va) {d : Database}
    {base : Snapshot κ PMap} (hbase : committedOf committed temp attached d = some base) :
    (∃ w, SnapshotSim true disk h base w) ∧ ∀ a ∈ base.refs, a ∈ owned := by
  cases d with
  | main =>
    cases hbase
    exact ⟨⟨_, hok.main⟩, fun a ha => hok.held a (List.mem_append_left _ ha)⟩
  | temp =>
    cases hbase
    exact ⟨⟨_, hok.temporary⟩, fun a ha => hok.held a (List.mem_append_right _ ha)⟩
  | attached name =>
    have hbase : SortedMap.get name attached = some base := hbase
    rcases hok.attachments.sim.get name with ⟨hnone, -⟩ | ⟨b, w, hb, -, hsim⟩
    · rw [hbase] at hnone
      cases hnone
    · cases hbase.symm.trans hb
      refine ⟨⟨w, hsim⟩, fun a ha => hok.attachments.held a (List.mem_flatMap.mpr ⟨base, ?_, ha⟩)⟩
      exact List.mem_map.mpr ⟨_, mem_of_get hb, rfl⟩

/-- After any statements, savepoints, releases and rollbacks of a block, a database that would be written
    as something else than what was committed is marked as written to, and the change is seen. -/
theorem changes_are_seen (hsrc : SourceOk disk src)
    (hok : CommittedOk disk owned h committed temp attached vc vt va) (writable : Bool)
    (seq : List (Name × Int)) (lastName : Option Name) (steps : List (BlockStep ρ κ))
    (hfits : RunFits src attached steps
      (ActiveTx.open (nodeTrees src) writable committed temp seq lastName h).1
      (ActiveTx.open (nodeTrees src) writable committed temp seq lastName h).2) :
    let tx := ActiveTx.open (nodeTrees src) writable committed temp seq lastName h
    let r := tx.1.run (nodeTrees src) attached steps tx.2
    ∀ served, Serves disk served → ∀ d s base, r.2.1.current.snap? d = some s →
      committedOf committed temp attached d = some base →
      s.image served r.2.2 ≠ base.image served h →
      s.changedSince PMap.root base = true ∧ r.2.1.current.isDirty d = true := by
  intro tx r served hserves d s base hsnap hbase hdiffer
  have hopen := open_ok src hok.counted hok.main hok.temporary writable seq lastName
  obtain ⟨b, -, hstep⟩ :=
    run_spec hsrc steps (hok.attachments.extends hopen.keeps) hopen.toBlockOk hfits
  have hsince := (run_since (nodeTrees src) steps tx.2
    (open_since (nodeTrees src) writable seq lastName h)).current d s hsnap
  obtain ⟨base', hbase', hsince, hclean⟩ := hsince
  cases hbase.symm.trans hbase'
  obtain ⟨⟨w, hsim⟩, hheld⟩ := hok.base hbase
  have hkeeps : Extends Node.kids owned h r.2.2 := hopen.keeps.trans hstep.keeps
  have hbaseImage := hsim.image_extends hserves hkeeps hheld
  rw [← hbaseImage] at hdiffer
  constructor
  · by_contra hsame
    rcases hstep.sim.current.snap d with ⟨hnone, -⟩ | ⟨s', v, hs', -, hv⟩
    · cases hsnap.symm.trans hnone
    · cases hsnap.symm.trans hs'
      exact hdiffer (image_of_unchanged hv (hsim.extends hkeeps hheld) hsince (by simpa using hsame))
  · by_contra hdirty
    exact hdiffer (by rw [hclean (by simpa using hdirty)])

/-- The block creates the table of accounts, so that the main database has changed and is dirty. -/
theorem changes_are_seen_accounts :
    let tx := ActiveTx.open (nodeTrees none) true (emptySnapshot PMap) (emptySnapshot PMap) [] none
      (⟨[]⟩ : Heap Unit Nat)
    let r := tx.1.run (nodeTrees none) [] accountSteps tx.2
    ∃ s, r.2.1.current.snap? .main = some s ∧ s.changedSince PMap.root (emptySnapshot PMap) = true ∧
      r.2.1.current.isDirty .main = true := by
  have hcounted : Counted Node.kids (⟨[]⟩ : Heap Unit Nat) [] := fun _ => rfl
  have hseen := changes_are_seen (noDisk_sourceOk none) ⟨hcounted, fun _ ha => (by cases ha), emptySnapshot_sim,
    emptySnapshot_sim, ⟨.nil, fun _ ha => (by cases ha)⟩⟩ true [] none accountSteps accountSteps_fit
  refine ⟨_, rfl, hseen (some (diskSource noDisk)) (diskSource_serves _) .main _ _ rfl rfl fun h => ?_⟩
  have hstores : (1 : ℕ) = 0 := by with_unfolding_all exact congrArg (fun image => image.stores.length) h
  cases hstores

end Blocks

end Jed.Txn
