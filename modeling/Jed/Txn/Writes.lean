import Jed.Txn.Sharing

/-!
# Writes to shared snapshots

Every write to a snapshot does to it what it does to a snapshot of values, and leaves the trees that
others hold.
-/

namespace Jed.Txn

open Arc PMap SortedMap

variable {ε ρ κ : Type}

/-- The record that a write puts into a tree stays within the record cap. -/
def Mutation.Fits {τ : Type} (s : Snapshot κ τ) : Mutation ρ κ → Prop
  | .edit side name e => ∀ st, SortedMap.get name (s.side side) = some st →
      st.cap.WellFormed ∧ e.Fits st.cap st.shape
  | _ => True

section Writes

variable {whole : Bool} {disk : Disk ρ} {h h' : Heap ε ρ} {owned : List Addr} {s : Snapshot κ PMap}
  {v : Snapshot κ (TreeMap ρ)}

theorem modifyTable_step (key : Name) (f : Table κ → Table κ) (hok : SnapshotOk whole disk owned h s v) :
    SnapshotStep whole disk owned h h (s.modifyTable key f) (v.modifyTable key f) := by
  refine hok.withCatalog (fun _ s => s.modifyTable key f) (fun _ s => ?_) (fun _ s => ?_) (fun _ s => ?_)
  all_goals
    simp only [Snapshot.modifyTable, Snapshot.catalog]
    cases SortedMap.get key s.tables <;> rfl

theorem bumpCatGen_step (hok : SnapshotOk whole disk owned h s v) :
    SnapshotStep whole disk owned h h s.bumpCatGen v.bumpCatGen :=
  hok.withCatalog (fun _ s => s.bumpCatGen) (fun _ _ => rfl) (fun _ _ => rfl) (fun _ _ => rfl)

theorem removeForeignKey_step (tableKey fkName : Name) (hok : SnapshotOk whole disk owned h s v) :
    SnapshotStep whole disk owned h h (s.removeForeignKey tableKey fkName)
      (v.removeForeignKey tableKey fkName) := by
  refine hok.withCatalog (fun _ s => s.removeForeignKey tableKey fkName) (fun _ s => ?_) (fun _ s => ?_)
    (fun _ s => ?_)
  all_goals
    simp only [Snapshot.removeForeignKey, Snapshot.modifyTable, Snapshot.catalog, Snapshot.bumpCatGen]
    cases SortedMap.get tableKey s.tables <;> rfl

theorem setColumnDefaultExpr_step (tableKey : Name) (column : ℕ) (expr : κ)
    (hok : SnapshotOk whole disk owned h s v) :
    SnapshotStep whole disk owned h h (s.setColumnDefaultExpr tableKey column expr)
      (v.setColumnDefaultExpr tableKey column expr) := by
  refine hok.withCatalog (fun _ s => s.setColumnDefaultExpr tableKey column expr) (fun _ s => ?_)
    (fun _ s => ?_) (fun _ s => ?_)
  all_goals
    simp only [Snapshot.setColumnDefaultExpr, Snapshot.modifyTable, Snapshot.catalog, Snapshot.bumpCatGen]
    cases (SortedMap.get tableKey s.tables).bind (·.columns[column]?) <;>
      cases SortedMap.get tableKey s.tables <;> rfl

theorem cascadeDroppedUniqueFks_step (parent : Name) (dropped : List (List ℕ))
    (hok : SnapshotOk whole disk owned h s v) :
    SnapshotStep whole disk owned h h (s.cascadeDroppedUniqueFks parent dropped)
      (v.cascadeDroppedUniqueFks parent dropped) := by
  refine hok.withCatalog (fun _ s => s.cascadeDroppedUniqueFks parent dropped) (fun _ s => ?_)
    (fun _ s => ?_) (fun _ s => ?_)
  all_goals
    simp only [Snapshot.cascadeDroppedUniqueFks]
    split <;> rfl

theorem repinCollations_step (loaded : List (Collation κ)) (hok : SnapshotOk whole disk owned h s v) :
    SnapshotStep whole disk owned h h (s.repinCollations loaded) (v.repinCollations loaded) := by
  have hpins : ∀ {s : Snapshot κ PMap} {v : Snapshot κ (TreeMap ρ)}, SnapshotOk whole disk owned h s v →
      SnapshotStep whole disk owned h h (loaded.foldl Snapshot.putCollation s)
        (loaded.foldl Snapshot.putCollation v) := by
    induction loaded with
    | nil => exact fun hok => hok.refl
    | cons coll loaded ih =>
      intro s v hok
      exact ih (hok.withCatalog (fun _ s => s.putCollation coll) (fun _ _ => rfl) (fun _ _ => rfl)
        (fun _ _ => rfl)).toSnapshotOk
  exact bumpCatGen_step (hpins hok).toSnapshotOk

variable (src : Option (LeafSource ε ρ)) (faults : List (Option (Failure ε)))

theorem putTable_step (table : Table κ) (cap : Cap) (shape : LeafShape)
    (hok : SnapshotOk whole disk owned h s v) :
    SnapshotStep whole disk owned h (s.putTable (nodeTrees src) table cap shape h).2
      (s.putTable (nodeTrees src) table cap shape h).1 (v.putTable treeValues table cap shape faults).1 := by
  refine hok.withStores id (putEmptyStore_step src faults table.name cap shape hok.storesOk) rfl rfl ?_
  exact congrArg (fun c : Snapshot κ Unit =>
    { c.bumpCatGen with tables := SortedMap.insert table.name table c.tables }) hok.sim.catalog

theorem putIndexStore_step (name : Name) (cap : Cap) (shape : LeafShape)
    (hok : SnapshotOk whole disk owned h s v) :
    SnapshotStep whole disk owned h (s.putIndexStore (nodeTrees src) name cap shape h).2
      (s.putIndexStore (nodeTrees src) name cap shape h).1
      (v.putIndexStore treeValues name cap shape faults).1 :=
  hok.withIndexStores id (putEmptyStore_step src faults name cap shape hok.indexOk) rfl rfl hok.sim.catalog

theorem removeIndexStore_step (name : Name) (hok : SnapshotOk whole disk owned h s v) :
    SnapshotStep whole disk owned h (s.removeIndexStore (nodeTrees src) name h).2
      (s.removeIndexStore (nodeTrees src) name h).1 (v.removeIndexStore treeValues name faults).1 :=
  hok.withIndexStores id (dropStore_step src faults name hok.indexOk) rfl rfl hok.sim.catalog

theorem putIndex_step (tableKey : Name) (d : IndexDef κ) (cap : Cap) (shape : LeafShape)
    (hok : SnapshotOk whole disk owned h s v) :
    SnapshotStep whole disk owned h (s.putIndex (nodeTrees src) tableKey d cap shape h).2
      (s.putIndex (nodeTrees src) tableKey d cap shape h).1
      (v.putIndex treeValues tableKey d cap shape faults).1 := by
  have hput := putIndexStore_step src faults d.name cap shape
    (bumpCatGen_step hok).toSnapshotOk
  exact hput.trans (modifyTable_step tableKey _ hput.toSnapshotOk)

theorem removeIndex_step (tableKey nameKey : Name) (hok : SnapshotOk whole disk owned h s v) :
    SnapshotStep whole disk owned h (s.removeIndex (nodeTrees src) tableKey nameKey h).2
      (s.removeIndex (nodeTrees src) tableKey nameKey h).1
      (v.removeIndex treeValues tableKey nameKey faults).1 :=
  removeIndexStore_step src faults nameKey
    (modifyTable_step tableKey _ (bumpCatGen_step hok).toSnapshotOk).toSnapshotOk

theorem indexNames_eq (hok : SnapshotOk whole disk owned h s v) (key : Name) :
    s.indexNames key = v.indexNames key := by
  have htables : s.tables = v.tables := congrArg Snapshot.tables hok.sim.catalog
  rw [Snapshot.indexNames, Snapshot.indexNames, htables]

theorem withIndex_step {indexStores : ByName (TableStore PMap)} {v' : ByName (TableStore (TreeMap ρ))}
    (hok : SnapshotOk whole disk owned h s v)
    (hstep : StoresStep whole disk (refsOf (s.stores.map Prod.snd) ++ owned) h h' indexStores v') :
    SnapshotStep whole disk owned h h' { s with indexStores } { v with indexStores := v' } :=
  hok.withIndexStores id hstep rfl rfl hok.sim.catalog

variable {stores : ByName (TableStore PMap)}

theorem withTables_step {v' : ByName (TableStore (TreeMap ρ))} (hok : SnapshotOk whole disk owned h s v)
    (hstep : StoresStep whole disk (refsOf (s.indexStores.map Prod.snd) ++ owned) h h' stores v') :
    SnapshotStep whole disk owned h h' { s with stores } { v with stores := v' } :=
  hok.withStores id hstep rfl rfl hok.sim.catalog

theorem removeTable_step (key : Name) (hok : SnapshotOk whole disk owned h s v) :
    SnapshotStep whole disk owned h (s.removeTable (nodeTrees src) key h).2
      (s.removeTable (nodeTrees src) key h).1 (v.removeTable treeValues key faults).1 := by
  have hindexes := withIndex_step hok (dropStores_step src faults (s.indexNames key) hok.indexOk)
  have htable := withTables_step hindexes.toSnapshotOk
    (dropStore_step src faults key hindexes.storesOk)
  have hcatalog := htable.toSnapshotOk.withCatalog (fun _ s => { s.bumpCatGen with
    tables := SortedMap.erase key s.tables
    statistics := SortedMap.erase key s.statistics }) (fun _ _ => rfl) (fun _ _ => rfl) (fun _ _ => rfl)
  have hvalue : (v.removeTable treeValues key faults).1 = { v.bumpCatGen with
      indexStores := (Snapshot.dropStores treeValues (s.indexNames key) v.indexStores faults).1
      stores := (Snapshot.dropStore treeValues key v.stores faults).1
      tables := SortedMap.erase key v.tables
      statistics := SortedMap.erase key v.statistics } := by
    rw [indexNames_eq hok]
    rfl
  rw [hvalue]
  exact (hindexes.trans htable).trans hcatalog

theorem markStatisticsStale_step (table : Name) (hok : SnapshotOk whole disk owned h s v) :
    SnapshotStep whole disk owned h h (s.markStatisticsStale table) (v.markStatisticsStale table) :=
  hok.withCatalog (fun _ s => s.markStatisticsStale table) (fun _ _ => rfl) (fun _ _ => rfl)
    (fun _ _ => rfl)

theorem truncateTable_step (name : Name) (hok : SnapshotOk whole disk owned h s v) :
    SnapshotStep whole disk owned h (s.truncateTable (nodeTrees src) name h).2
      (s.truncateTable (nodeTrees src) name h).1 (v.truncateTable treeValues name faults).1 := by
  have htable := withTables_step hok (truncateStore_step src faults name hok.storesOk)
  have hindexes := withIndex_step htable.toSnapshotOk (truncateStores_step src faults
    (s.indexNames name) htable.indexOk)
  have hstep := (htable.trans hindexes).trans (markStatisticsStale_step name hindexes.toSnapshotOk)
  have hvalue : (v.truncateTable treeValues name faults).1 = ({ v with
      stores := (Snapshot.truncateStore treeValues v.stores faults name).1
      indexStores := (Snapshot.truncateStores treeValues (s.indexNames name) v.indexStores faults).1 }
      ).markStatisticsStale name := by
    simp only [Snapshot.truncateTable, truncateStore_faults, indexNames_eq hok]
  rw [hvalue]
  exact hstep

theorem renameTable_step (oldKey newKey : Name) (hok : SnapshotOk whole disk owned h s v) :
    SnapshotStep whole disk owned h (s.renameTable (nodeTrees src) oldKey newKey h).2
      (s.renameTable (nodeTrees src) oldKey newKey h).1 (v.renameTable treeValues oldKey newKey faults).1 := by
  have hstores := withTables_step hok (renameStore_step src faults oldKey newKey hok.storesOk)
  exact hstores.trans (hstores.toSnapshotOk.withCatalog (fun _ s => s.renameEntry oldKey newKey)
    (fun _ _ => rfl) (fun _ _ => rfl) (fun _ _ => rfl))

theorem renameStore_faults (old new : Name) (w : ByName (TableStore (TreeMap ρ))) :
    (Snapshot.renameStore (treeValues : TreeOps ε ρ _ _) old new w faults).2 = faults := by
  unfold Snapshot.renameStore
  split <;> rfl

theorem alterEntry_step (newKey : Name) (table : Table κ) (indexRename : Option (Name × Name))
    (hok : SnapshotOk whole disk owned h s v) :
    SnapshotStep whole disk owned h (s.alterEntry (nodeTrees src) newKey table indexRename h).2
      (s.alterEntry (nodeTrees src) newKey table indexRename h).1
      (v.alterEntry treeValues newKey table indexRename faults).1 := by
  have htable := hok.withCatalog (fun _ s => { s with tables := SortedMap.insert newKey table s.tables })
    (fun _ _ => rfl) (fun _ _ => rfl) (fun _ _ => rfl)
  cases indexRename with
  | none => exact htable
  | some names => exact htable.trans (withIndex_step htable.toSnapshotOk
      (renameStore_step src faults names.1 names.2 htable.indexOk))

theorem alterTableCatalog_step (oldKey : Name) (table : Table κ) (rename : Bool)
    (indexRename : Option (Name × Name)) (hok : SnapshotOk whole disk owned h s v) :
    SnapshotStep whole disk owned h
      (s.alterTableCatalog (nodeTrees src) oldKey table rename indexRename h).2
      (s.alterTableCatalog (nodeTrees src) oldKey table rename indexRename h).1
      (v.alterTableCatalog treeValues oldKey table rename indexRename faults).1 := by
  have hbump := bumpCatGen_step hok
  cases rename with
  | false => exact hbump.trans (alterEntry_step src faults oldKey table indexRename hbump.toSnapshotOk)
  | true =>
    have hmoved := renameTable_step src faults oldKey table.name hbump.toSnapshotOk
    have hentry := alterEntry_step src faults table.name table indexRename hmoved.toSnapshotOk
    have hfollow := hentry.toSnapshotOk.withCatalog (fun _ s => s.followRename oldKey table.name)
      (fun _ _ => rfl) (fun _ _ => rfl) (fun _ _ => rfl)
    have hfaults : (v.bumpCatGen.renameTable (treeValues : TreeOps ε ρ _ _) oldKey table.name faults).2
        = faults := renameStore_faults faults oldKey table.name v.stores
    have hvalue : (v.alterTableCatalog treeValues oldKey table true indexRename faults).1 =
        ((v.bumpCatGen.renameTable treeValues oldKey table.name faults).1.alterEntry treeValues table.name
          table indexRename faults).1.followRename oldKey table.name := by
      simp only [Snapshot.alterTableCatalog, if_true, hfaults]
    rw [hvalue]
    exact ((hbump.trans hmoved).trans hentry).trans hfollow

theorem StoresOk.withCounter {w : ByName (TableStore (TreeMap ρ))}
    {name : Name} {st : TableStore PMap} {x : TableStore (TreeMap ρ)} {n : Int}
    (hok : StoresOk whole disk owned h stores w) (hget : SortedMap.get name stores = some st)
    (hst : StoreSim whole disk h st x) :
    StoresStep whole disk owned h h (SortedMap.insert name { st with nextRowid := n } stores)
      (SortedMap.insert name { x with nextRowid := n } w) :=
  hok.modify id hget (fun hc => ⟨hc, .refl _ _⟩) ⟨rfl, hst.cap, hst.shape, hst.tree, hst.whole⟩

theorem SnapshotOk.withSide {whole' : Bool} {side : Side}
    {w : ByName (TableStore (TreeMap ρ))} (hok : SnapshotOk whole disk owned h s v) (hweak : whole' → whole)
    (hstep : ∀ {owned'}, StoresOk whole disk owned' h (s.side side) (v.side side) →
      StoresStep whole' disk owned' h h' stores w) :
    SnapshotStep whole' disk owned h h' (s.setSide side stores) (v.setSide side w) := by
  cases side with
  | table => exact hok.withStores hweak (hstep hok.storesOk) rfl rfl hok.sim.catalog
  | index => exact hok.withIndexStores hweak (hstep hok.indexOk) rfl rfl hok.sim.catalog

theorem SnapshotOk.side (hok : SnapshotOk whole disk owned h s v) (side : Side) :
    Rel (StoreSim whole disk h) (s.side side) (v.side side) := by
  cases side with
  | table => exact hok.sim.stores
  | index => exact hok.sim.indexStores

theorem SnapshotStep.weaken (hstep : SnapshotStep whole disk owned h h' s v) :
    SnapshotStep false disk owned h h' s v :=
  ⟨⟨hstep.counted, hstep.sim.imp fun hfalse => (by cases hfalse)⟩, hstep.keeps⟩

/-- An edit of a tree of one side. -/
theorem SnapshotOk.edit {src : Option (LeafSource ε ρ)} (hsrc : SourceOk disk src) {side : Side}
    {name : Name} {st : TableStore PMap} {x : TableStore (TreeMap ρ)} {e : Edit ρ}
    (hok : SnapshotOk true disk owned h s v) (hget : SortedMap.get name (s.side side) = some st)
    (hst : StoreSim true disk h st x) (hsep : SepFits st.cap st.shape) (hfits : e.Fits st.cap st.shape) :
    ∃ x', Told disk (fun faults => x.edit treeValues faults e) (st.edit (nodeTrees src) h e).1 x' ∧
      SnapshotStep (st.edit (nodeTrees src) h e).1.isOk disk owned h (st.edit (nodeTrees src) h e).2.2
        (s.setSide side (SortedMap.insert name (st.edit (nodeTrees src) h e).2.1 (s.side side)))
        (v.setSide side (SortedMap.insert name x' (v.side side))) := by
  cases side with
  | table =>
    obtain ⟨x', htold, hstep⟩ := edit_step hsrc hok.storesOk hget hst hsep hfits
    exact ⟨x', htold, hok.withStores (fun _ => rfl) hstep rfl rfl hok.sim.catalog⟩
  | index =>
    obtain ⟨x', htold, hstep⟩ := edit_step hsrc hok.indexOk hget hst hsep hfits
    exact ⟨x', htold, hok.withIndexStores (fun _ => rfl) hstep rfl rfl hok.sim.catalog⟩

end Writes

theorem dropStores_told (names : List Name) (v : ByName (TableStore (TreeMap ρ)))
    (faults : List (Option (Failure ε))) :
    Snapshot.dropStores treeValues names v faults =
      ((Snapshot.dropStores (treeValues : TreeOps ε ρ _ _) names v []).1, faults) := by
  induction names generalizing v with
  | nil => rfl
  | cons name names ih => exact ih _

theorem truncateStore_told (name : Name) (v : ByName (TableStore (TreeMap ρ)))
    (faults : List (Option (Failure ε))) :
    Snapshot.truncateStore treeValues v faults name =
      ((Snapshot.truncateStore (treeValues : TreeOps ε ρ _ _) v [] name).1, faults) := by
  unfold Snapshot.truncateStore
  split <;> rfl

theorem truncateStores_told (names : List Name) (v : ByName (TableStore (TreeMap ρ)))
    (faults : List (Option (Failure ε))) :
    Snapshot.truncateStores treeValues names v faults =
      ((Snapshot.truncateStores (treeValues : TreeOps ε ρ _ _) names v []).1, faults) := by
  induction names generalizing v with
  | nil => rfl
  | cons name names ih =>
    rw [Snapshot.truncateStores, Snapshot.truncateStores, truncateStore_told name v faults,
      truncateStore_told name v []]
    exact ih _

theorem renameStore_told (old new : Name) (v : ByName (TableStore (TreeMap ρ)))
    (faults : List (Option (Failure ε))) :
    Snapshot.renameStore treeValues old new v faults =
      ((Snapshot.renameStore (treeValues : TreeOps ε ρ _ _) old new v []).1, faults) := by
  unfold Snapshot.renameStore
  split <;> rfl

theorem renameIndexStore_told (indexRename : Option (Name × Name))
    (v : ByName (TableStore (TreeMap ρ))) (faults : List (Option (Failure ε))) :
    Snapshot.renameIndexStore treeValues indexRename v faults =
      ((Snapshot.renameIndexStore (treeValues : TreeOps ε ρ _ _) indexRename v []).1, faults) := by
  cases indexRename with
  | none => rfl
  | some names => exact renameStore_told names.1 names.2 v faults

theorem alterEntry_told (newKey : Name) (table : Table κ) (indexRename : Option (Name × Name))
    (v : Snapshot κ (TreeMap ρ)) (faults : List (Option (Failure ε))) :
    v.alterEntry treeValues newKey table indexRename faults =
      ((v.alterEntry (treeValues : TreeOps ε ρ _ _) newKey table indexRename []).1, faults) := by
  unfold Snapshot.alterEntry
  rw [renameIndexStore_told]

theorem renameTable_told (oldKey newKey : Name) (v : Snapshot κ (TreeMap ρ))
    (faults : List (Option (Failure ε))) :
    v.renameTable treeValues oldKey newKey faults =
      ((v.renameTable (treeValues : TreeOps ε ρ _ _) oldKey newKey []).1, faults) := by
  unfold Snapshot.renameTable
  rw [renameStore_told]

/-- Whether a write edits a tree: no other write is told anything. -/
def Mutation.isEdit : Mutation ρ κ → Bool
  | .edit _ _ _ => true
  | _ => false

/-- What edits are told is not for other writes. -/
theorem apply_told {m : Mutation ρ κ} (hm : m.isEdit = false) (v : Snapshot κ (TreeMap ρ))
    (faults : List (Option (Failure ε))) :
    m.apply treeValues v faults = ((m.apply treeValues v ([] : List (Option (Failure ε)))).1,
      (m.apply treeValues v ([] : List (Option (Failure ε)))).2.1, faults) := by
  cases m with
  | edit side name e => cases hm
  | removeTable key =>
    simp only [Mutation.apply, Snapshot.removeTable]
    rw [dropStores_told]
    rfl
  | truncateTable name =>
    simp only [Mutation.apply, Snapshot.truncateTable]
    rw [truncateStore_told, truncateStores_told, truncateStore_faults]
  | alterTableCatalog oldKey table rename indexRename =>
    simp only [Mutation.apply, Snapshot.alterTableCatalog]
    cases rename with
    | false =>
      simp only [Bool.false_eq_true, if_false]
      rw [alterEntry_told]
    | true =>
      have hmoved : (v.bumpCatGen.renameTable treeValues oldKey table.name
          ([] : List (Option (Failure ε)))).2 = [] := renameStore_faults [] oldKey table.name v.stores
      simp only [if_true]
      rw [renameTable_told, alterEntry_told, hmoved]
  | allocRowid side name | bumpRowidTo side name n =>
    simp only [Mutation.apply, Snapshot.storeMut]
    cases SortedMap.get name (v.side side) <;> rfl
  | _ => rfl

/-- What a write does, next to the references `owned` by others. -/
structure Writes (disk : Disk ρ) (owned : List Addr) (h : Heap ε ρ)
    (r : Except (Fault ε) Unit × Snapshot κ PMap × Heap ε ρ)
    (r' : Except (Fault ε) Unit × Snapshot κ (TreeMap ρ) × List (Option (Failure ε))) : Prop where
  res : r.1 = r'.1
  step : SnapshotStep r.1.isOk disk owned h r.2.2 r.2.1 r'.2.1

/-- Any other write than an edit does to a snapshot what it does to values. -/
theorem apply_writes_of_not_edit {disk : Disk ρ} (src : Option (LeafSource ε ρ)) {owned : List Addr}
    {h : Heap ε ρ} {s : Snapshot κ PMap} {v : Snapshot κ (TreeMap ρ)} {m : Mutation ρ κ}
    (hm : m.isEdit = false) (hok : SnapshotOk true disk owned h s v)
    (faults : List (Option (Failure ε))) :
    Writes disk owned h (m.apply (nodeTrees src) s h) (m.apply treeValues v faults) := by
  have hcatalog (f : ∀ τ, Snapshot κ τ → Snapshot κ τ)
      (hcat : ∀ τ (s : Snapshot κ τ), (f τ s).catalog = (f Unit s.catalog).catalog)
      (hstores : ∀ τ (s : Snapshot κ τ), (f τ s).stores = s.stores)
      (hindex : ∀ τ (s : Snapshot κ τ), (f τ s).indexStores = s.indexStores) :
      Writes disk owned h (.ok (), f _ s, h) (.ok (), f _ v, faults) :=
    ⟨rfl, hok.withCatalog f hcat hstores hindex⟩
  have hcounter (side : Side) (name : Name) (n : ∀ τ, TableStore τ → Int)
      (hn : ∀ st x, StoreSim true disk h st x → n _ st = n _ x) :
      Writes disk owned h
        (s.storeMut side name h fun st => (.ok (), { st with nextRowid := n _ st }, h))
        (v.storeMut side name faults fun st => (.ok (), { st with nextRowid := n _ st }, faults)) := by
    unfold Snapshot.storeMut
    rcases (hok.side side).get name with ⟨hnone, hnone'⟩ | ⟨st, x, hst, hx, hsim⟩
    · rw [hnone, hnone']
      exact ⟨rfl, hok.refl.weaken⟩
    · rw [hst, hx]
      refine ⟨rfl, hok.withSide id fun hstores => ?_⟩
      rw [hn st x hsim]
      exact hstores.withCounter hst hsim
  cases m with
  | putColumnStatistics table column statistics =>
    exact hcatalog (fun _ s => s.putColumnStatistics table column statistics)
      (fun _ _ => rfl) (fun _ _ => rfl) (fun _ _ => rfl)
  | markStatisticsStale table =>
    exact hcatalog (fun _ s => s.markStatisticsStale table)
      (fun _ _ => rfl) (fun _ _ => rfl) (fun _ _ => rfl)
  | clearStatistics table =>
    exact hcatalog (fun _ s => s.clearStatistics table)
      (fun _ _ => rfl) (fun _ _ => rfl) (fun _ _ => rfl)
  | clearColumnStatistics table column =>
    exact hcatalog (fun _ s => s.clearColumnStatistics table column)
      (fun _ _ => rfl) (fun _ _ => rfl) (fun _ _ => rfl)
  | putType ty =>
    exact hcatalog (fun _ s => s.putType ty)
      (fun _ _ => rfl) (fun _ _ => rfl) (fun _ _ => rfl)
  | removeType key =>
    exact hcatalog (fun _ s => s.removeType key)
      (fun _ _ => rfl) (fun _ _ => rfl) (fun _ _ => rfl)
  | putSequence seq =>
    exact hcatalog (fun _ s => s.putSequence seq)
      (fun _ _ => rfl) (fun _ _ => rfl) (fun _ _ => rfl)
  | removeSequence key =>
    exact hcatalog (fun _ s => s.removeSequence key)
      (fun _ _ => rfl) (fun _ _ => rfl) (fun _ _ => rfl)
  | putView view =>
    exact hcatalog (fun _ s => s.putView view)
      (fun _ _ => rfl) (fun _ _ => rfl) (fun _ _ => rfl)
  | removeView key =>
    exact hcatalog (fun _ s => s.removeView key)
      (fun _ _ => rfl) (fun _ _ => rfl) (fun _ _ => rfl)
  | setDefaultCollation name =>
    exact hcatalog (fun _ s => s.setDefaultCollation name)
      (fun _ _ => rfl) (fun _ _ => rfl) (fun _ _ => rfl)
  | remapAlterColumnDependents parent originalToNew pending =>
    exact hcatalog (fun _ s => s.remapAlterColumnDependents parent originalToNew pending)
        (fun _ _ => rfl) (fun _ _ => rfl) (fun _ _ => rfl)
  | repinCollations loaded =>
    exact ⟨rfl, repinCollations_step loaded hok⟩
  | removeForeignKey tableKey fkName =>
    exact ⟨rfl, removeForeignKey_step tableKey fkName hok⟩
  | setColumnDefaultExpr tableKey column expr =>
    exact ⟨rfl, setColumnDefaultExpr_step tableKey column expr hok⟩
  | cascadeDroppedUniqueFks parent dropped =>
    exact ⟨rfl, cascadeDroppedUniqueFks_step parent dropped hok⟩
  | putTable table cap shape =>
    exact ⟨rfl, putTable_step src faults table cap shape hok⟩
  | removeTable key =>
    exact ⟨rfl, removeTable_step src faults key hok⟩
  | truncateTable name =>
    exact ⟨rfl, truncateTable_step src faults name hok⟩
  | putIndexStore name cap shape =>
    exact ⟨rfl, putIndexStore_step src faults name cap shape hok⟩
  | removeIndexStore name =>
    exact ⟨rfl, removeIndexStore_step src faults name hok⟩
  | putIndex tableKey d cap shape =>
    exact ⟨rfl, putIndex_step src faults tableKey d cap shape hok⟩
  | removeIndex tableKey nameKey =>
    exact ⟨rfl, removeIndex_step src faults tableKey nameKey hok⟩
  | alterTableCatalog oldKey table rename indexRename =>
    exact ⟨rfl,
      alterTableCatalog_step src faults oldKey table rename indexRename hok⟩
  | allocRowid side name =>
    exact hcounter side name (fun _ st => st.nextRowid + 1)
      fun st x hsim => by rw [hsim.nextRowid]
  | bumpRowidTo side name n =>
    exact hcounter side name
      (fun _ st => if st.nextRowid < n then n else st.nextRowid) fun st x hsim => by rw [hsim.nextRowid]
  | edit side name e => cases hm

/-- A write to a snapshot does what it does to values, if they are told of the page that does not load. -/
theorem Mutation.apply_writes {disk : Disk ρ} {src : Option (LeafSource ε ρ)} (hsrc : SourceOk disk src)
    {owned : List Addr} {h : Heap ε ρ} {s : Snapshot κ PMap} {v : Snapshot κ (TreeMap ρ)} (m : Mutation ρ κ)
    (hok : SnapshotOk true disk owned h s v) (hfits : m.Fits s) :
    ∃ v', Told disk (fun faults => m.apply treeValues v faults) (m.apply (nodeTrees src) s h).1 v' ∧
      SnapshotStep (m.apply (nodeTrees src) s h).1.isOk disk owned h (m.apply (nodeTrees src) s h).2.2
        (m.apply (nodeTrees src) s h).2.1 v' := by
  by_cases hm : m.isEdit = false
  · have hwrites := apply_writes_of_not_edit src hm hok []
    refine ⟨_, Told.nothing fun faults => ?_, hwrites.step⟩
    rw [apply_told hm, hwrites.res]
  · cases m with
    | edit side name e =>
      rcases (hok.side side).get name with ⟨hnone, hnone'⟩ | ⟨st, x, hst, hx, hsim⟩
      · simp only [Mutation.apply, Snapshot.storeMut, hnone, hnone']
        exact ⟨v, Told.nothing fun _ => rfl, hok.refl.weaken⟩
      · simp only [Mutation.apply, Snapshot.storeMut, hst, hx]
        obtain ⟨hcap, hedit⟩ := hfits st hst
        obtain ⟨x', htold, hstep⟩ := hok.edit hsrc hst hsim (hcap.sepFits _) hedit
        exact ⟨_, htold.map fun faults faults' hf => by rw [hf], hstep⟩
    | _ => exact absurd rfl hm

end Jed.Txn
