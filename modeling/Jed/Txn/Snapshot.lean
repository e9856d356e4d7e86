import Jed.PMap.Snapshots

/-!
# Database snapshots

The state that a write transaction works on (`executor/mod.rs:362-455`): the catalog, the trees of its
tables and indexes, and the counters by which a change of it is noticed. The catalog maps are copied when
they are written to; a snapshot shares the nodes of its trees with those it was cloned from.
-/

namespace Jed.Txn

open PMap

/-- An exact name, by its bytes. -/
abbrev Name := Bytes

/-! ## Catalog entries

`rest` is what an entry holds beyond what is read here. -/

structure Column (κ : Type) where
  collation : Option Name
  defaultExpr : Option κ
  rest : κ
  deriving DecidableEq

structure IndexDef (κ : Type) where
  name : Name
  rest : κ
  deriving DecidableEq

structure ForeignKey (κ : Type) where
  name : Name
  refTable : Name
  refColumns : List Nat
  rest : κ
  deriving DecidableEq

structure Table (κ : Type) where
  name : Name
  columns : List (Column κ)
  indexes : List (IndexDef κ)
  foreignKeys : List (ForeignKey κ)
  rest : κ
  deriving DecidableEq

structure CompositeType (κ : Type) where
  name : Name
  rest : κ
  deriving DecidableEq

/-- The column that a sequence goes with. -/
structure Owner where
  table : Name
  column : Nat
  deriving DecidableEq

structure SequenceDef (κ : Type) where
  name : Name
  ownedBy : Option Owner
  rest : κ
  deriving DecidableEq

structure ViewDef (κ : Type) where
  name : Name
  rest : κ
  deriving DecidableEq

structure ColumnStatistics (κ : Type) where
  stale : Bool
  rest : κ
  deriving DecidableEq

structure Collation (κ : Type) where
  name : Name
  rest : κ
  deriving DecidableEq

/-- What a store does with its tree, on a heap of `χ`. -/
structure TreeOps (ε ρ τ χ : Type) where
  new : τ
  edit : Cap → LeafShape → χ → τ → Edit ρ → Except (Fault ε) (Option ρ) × τ × χ
  clone : χ → List τ → χ
  drop : χ → List τ → χ

/-- The trees of the program. A clone is one more reference to the root. -/
def nodeTrees {ε ρ : Type} (src : Option (LeafSource ε ρ)) : TreeOps ε ρ PMap (Heap ε ρ) where
  new := PMap.new
  edit := applyEdit src
  clone h ms := h.cloneAll (ms.flatMap PMap.refs)
  drop h ms := h.dropAll Node.kids (ms.flatMap PMap.refs)

/-- `TableStore` (`storage.rs:143-180`). -/
structure TableStore (τ : Type) where
  rows : τ
  nextRowid : Int
  cap : Cap
  shape : LeafShape
  deriving DecidableEq

/-- `TableStore::alloc_rowid` (`storage.rs:337-341`). The counter is taken not to leave `i64`. -/
def TableStore.allocRowid {τ : Type} (st : TableStore τ) : TableStore τ :=
  { st with nextRowid := st.nextRowid + 1 }

/-- `TableStore::bump_rowid_to` (`storage.rs:345-349`). -/
def TableStore.bumpRowidTo {τ : Type} (st : TableStore τ) (n : Int) : TableStore τ :=
  { st with nextRowid := if st.nextRowid < n then n else st.nextRowid }

/-- A map by names, in their order. -/
abbrev ByName (β : Type) := List (Name × β)

/-- `Snapshot`. The generation counters are taken not to leave `u64`. -/
structure Snapshot (κ τ : Type) where
  catGen : Nat
  dataGen : Nat
  statistics : ByName (List (Nat × ColumnStatistics κ))
  tables : ByName (Table κ)
  types : ByName (CompositeType κ)
  stores : ByName (TableStore τ)
  indexStores : ByName (TableStore τ)
  sequences : ByName (SequenceDef κ)
  views : ByName (ViewDef κ)
  collations : ByName (Collation κ)
  defaultCollation : Option Name

variable {ε ρ κ τ χ : Type}

namespace Snapshot

/-- The trees that a snapshot holds. -/
def trees (s : Snapshot κ τ) : List τ :=
  s.stores.map (·.2.rows) ++ s.indexStores.map (·.2.rows)

/-- `bump_cat_gen`. -/
def bumpCatGen (s : Snapshot κ τ) : Snapshot κ τ := { s with catGen := s.catGen + 1 }

/-- The other counter, of sequences and statistics. -/
def bumpDataGen (s : Snapshot κ τ) : Snapshot κ τ := { s with dataGen := s.dataGen + 1 }

/-- The trees' roots that `changed_since` compares. -/
def storesChanged [DecidableEq α] (root : τ → Option α) (stores base : ByName (TableStore τ)) : Bool :=
  stores.length != base.length ||
    stores.any fun e =>
      match SortedMap.get e.1 base with
      | none => true
      | some old => e.2.nextRowid != old.nextRowid || root e.2.rows != root old.rows

/-- `changed_since` (`snapshot.rs:11-33`). -/
def changedSince [DecidableEq α] (root : τ → Option α) (s base : Snapshot κ τ) : Bool :=
  s.catGen != base.catGen || s.dataGen != base.dataGen ||
    s.defaultCollation != base.defaultCollation ||
    storesChanged root s.stores base.stores || storesChanged root s.indexStores base.indexStores

/-! ### Statistics, types, sequences and views -/

/-- `put_column_statistics`. -/
def putColumnStatistics (s : Snapshot κ τ) (table : Name) (column : Nat)
    (statistics : ColumnStatistics κ) : Snapshot κ τ :=
  let columns := (SortedMap.get table s.statistics).getD []
  { s.bumpDataGen with
    statistics := SortedMap.insert table (SortedMap.insert column statistics columns) s.statistics }

/-- `mark_statistics_stale`. -/
def markStatisticsStale (s : Snapshot κ τ) (table : Name) : Snapshot κ τ :=
  { s.bumpDataGen with
    statistics := match SortedMap.get table s.statistics with
      | none => s.statistics
      | some columns => SortedMap.insert table
          (SortedMap.mapValues (fun st => { st with stale := true }) columns) s.statistics }

/-- `clear_statistics`. -/
def clearStatistics (s : Snapshot κ τ) (table : Name) : Snapshot κ τ :=
  { s.bumpDataGen with statistics := SortedMap.erase table s.statistics }

/-- `clear_column_statistics`. -/
def clearColumnStatistics (s : Snapshot κ τ) (table : Name) (column : Nat) : Snapshot κ τ :=
  { s.bumpDataGen with
    statistics := match SortedMap.get table s.statistics with
      | none => s.statistics
      | some columns =>
        if (SortedMap.erase column columns).isEmpty then SortedMap.erase table s.statistics
        else SortedMap.insert table (SortedMap.erase column columns) s.statistics }

/-- `put_type`. -/
def putType (s : Snapshot κ τ) (ty : CompositeType κ) : Snapshot κ τ :=
  { s.bumpCatGen with types := SortedMap.insert ty.name ty s.types }

/-- `remove_type`. -/
def removeType (s : Snapshot κ τ) (key : Name) : Snapshot κ τ :=
  { s.bumpCatGen with types := SortedMap.erase key s.types }

/-- `put_sequence`. -/
def putSequence (s : Snapshot κ τ) (seq : SequenceDef κ) : Snapshot κ τ :=
  { s.bumpDataGen with sequences := SortedMap.insert seq.name seq s.sequences }

/-- `remove_sequence`. -/
def removeSequence (s : Snapshot κ τ) (key : Name) : Snapshot κ τ :=
  { s.bumpDataGen with sequences := SortedMap.erase key s.sequences }

/-- `put_view`. -/
def putView (s : Snapshot κ τ) (view : ViewDef κ) : Snapshot κ τ :=
  { s.bumpCatGen with views := SortedMap.insert view.name view s.views }

/-- `remove_view`. -/
def removeView (s : Snapshot κ τ) (key : Name) : Snapshot κ τ :=
  { s.bumpCatGen with views := SortedMap.erase key s.views }

/-! ### Collations -/

/-- `put_collation`. -/
def putCollation (s : Snapshot κ τ) (coll : Collation κ) : Snapshot κ τ :=
  { s with collations := SortedMap.insert coll.name coll s.collations }

/-- The end of `upgrade_collations` (`snapshot.rs:517-529`): the pins of the skewed collations. -/
def repinCollations (s : Snapshot κ τ) (loaded : List (Collation κ)) : Snapshot κ τ :=
  (loaded.foldl putCollation s).bumpCatGen

/-- `set_default_collation`. -/
def setDefaultCollation (s : Snapshot κ τ) (name : Option Name) : Snapshot κ τ :=
  { s with defaultCollation := name }

/-! ### Table entries -/

/-- A table's entry, edited where it is. -/
def modifyTable (s : Snapshot κ τ) (key : Name) (f : Table κ → Table κ) : Snapshot κ τ :=
  match SortedMap.get key s.tables with
  | none => s
  | some table => { s with tables := SortedMap.insert key (f table) s.tables }

/-- `remove_foreign_key`. -/
def removeForeignKey (s : Snapshot κ τ) (tableKey fkName : Name) : Snapshot κ τ :=
  match SortedMap.get tableKey s.tables with
  | none => s
  | some _ => s.bumpCatGen.modifyTable tableKey fun table =>
      { table with foreignKeys := table.foreignKeys.filter (·.name ≠ fkName) }

/-- `set_column_default_expr`. -/
def setColumnDefaultExpr (s : Snapshot κ τ) (tableKey : Name) (column : Nat) (expr : κ) : Snapshot κ τ :=
  match (SortedMap.get tableKey s.tables).bind (·.columns[column]?) with
  | none => s
  | some _ => s.bumpCatGen.modifyTable tableKey fun table =>
      { table with columns := table.columns.modify column fun col => { col with defaultExpr := some expr } }

/-- `sorted_unique`. -/
def sortedUnique (columns : List Nat) : List Nat := columns.toFinset.sort

/-- `cascade_dropped_unique_fks` (`snapshot.rs:1261-1276`). -/
def cascadeDroppedUniqueFks (s : Snapshot κ τ) (parent : Name) (dropped : List (List Nat)) :
    Snapshot κ τ :=
  if dropped.isEmpty then s
  else { s.bumpCatGen with
    tables := SortedMap.mapValues (fun child =>
      if child.name = parent then child
      else { child with foreignKeys := child.foreignKeys.filter fun fk =>
        fk.refTable ≠ parent ∨ sortedUnique fk.refColumns ∉ dropped }) s.tables }

/-- A list of columns by their new ordinals, if each of them stays. -/
def remapColumns (originalToNew : List (Option Nat)) (columns : List Nat) : Option (List Nat) :=
  columns.mapM fun old => (originalToNew[old]?).join

/-- The sequences that a dropped column leaves: the column's own one goes with it. -/
def remapOwned (parent : Name) (originalToNew : List (Option Nat)) (pending : List Name)
    (key : Name) (seq : SequenceDef κ) : Option (SequenceDef κ) :=
  if pending.contains key then some seq
  else
    match seq.ownedBy with
    | none => some seq
    | some owner =>
      if owner.table ≠ parent then some seq
      else (originalToNew[owner.column]?).join.map fun column =>
        { seq with ownedBy := some { owner with column } }

/-- `remap_alter_column_dependents` (`snapshot.rs:1281-1343`). -/
def remapAlterColumnDependents (s : Snapshot κ τ) (parent : Name) (originalToNew : List (Option Nat))
    (pending : List Name) : Snapshot κ τ :=
  { s.bumpCatGen with
    tables := s.tables.map fun e =>
      if e.1 = parent then e
      else (e.1, { e.2 with foreignKeys := e.2.foreignKeys.filterMap fun fk =>
        if fk.refTable ≠ parent then some fk
        else (remapColumns originalToNew fk.refColumns).map fun cols => { fk with refColumns := cols } })
    sequences := s.sequences.filterMap fun e =>
      (remapOwned parent originalToNew pending e.1 e.2).map (e.1, ·) }

/-! ### Stores -/

/-- An empty store. -/
def emptyStore (ops : TreeOps ε ρ τ χ) (cap : Cap) (shape : LeafShape) : TableStore τ :=
  ⟨ops.new, 0, cap, shape⟩

/-- A store under a name; one that had the name is dropped. -/
def putStore (ops : TreeOps ε ρ τ χ) (name : Name) (st : TableStore τ) (stores : ByName (TableStore τ))
    (h : χ) : ByName (TableStore τ) × χ :=
  (SortedMap.insert name st stores, ops.drop h ((SortedMap.get name stores).toList.map (·.rows)))

/-- The stores without the one of a name, which is dropped. -/
def dropStore (ops : TreeOps ε ρ τ χ) (name : Name) (stores : ByName (TableStore τ)) (h : χ) :
    ByName (TableStore τ) × χ :=
  (SortedMap.erase name stores, ops.drop h ((SortedMap.get name stores).toList.map (·.rows)))

/-- A store under another name. -/
def renameStore (ops : TreeOps ε ρ τ χ) (old new : Name) (stores : ByName (TableStore τ)) (h : χ) :
    ByName (TableStore τ) × χ :=
  match SortedMap.get old stores with
  | none => (stores, h)
  | some st => putStore ops new st (SortedMap.erase old stores) h

/-- `TableStore::truncated`, of the store of a name. -/
def truncateStore (ops : TreeOps ε ρ τ χ) (stores : ByName (TableStore τ)) (h : χ) (name : Name) :
    ByName (TableStore τ) × χ :=
  match SortedMap.get name stores with
  | none => (stores, h)
  | some st => putStore ops name { st with rows := ops.new } stores h

/-- `put_table_resolved` (`snapshot.rs:858-878`). -/
def putTable (ops : TreeOps ε ρ τ χ) (s : Snapshot κ τ) (table : Table κ) (cap : Cap)
    (shape : LeafShape) (h : χ) : Snapshot κ τ × χ :=
  let (stores, h) := putStore ops table.name (emptyStore ops cap shape) s.stores h
  ({ s.bumpCatGen with stores, tables := SortedMap.insert table.name table s.tables }, h)

/-- Stores without those of some names. -/
def dropStores (ops : TreeOps ε ρ τ χ) : List Name → ByName (TableStore τ) → χ →
    ByName (TableStore τ) × χ
  | [], stores, h => (stores, h)
  | name :: names, stores, h =>
    let (stores, h) := dropStore ops name stores h
    dropStores ops names stores h

/-- The indexes of a table. -/
def indexNames (s : Snapshot κ τ) (key : Name) : List Name :=
  ((SortedMap.get key s.tables).toList.flatMap (·.indexes)).map (·.name)

/-- `remove_table` (`snapshot.rs:882-895`). -/
def removeTable (ops : TreeOps ε ρ τ χ) (s : Snapshot κ τ) (key : Name) (h : χ) : Snapshot κ τ × χ :=
  let (indexStores, h) := dropStores ops (s.indexNames key) s.indexStores h
  let (stores, h) := dropStore ops key s.stores h
  ({ s.bumpCatGen with
    indexStores, stores
    tables := SortedMap.erase key s.tables
    statistics := SortedMap.erase key s.statistics }, h)

/-- Stores with those of some names empty. -/
def truncateStores (ops : TreeOps ε ρ τ χ) : List Name → ByName (TableStore τ) → χ →
    ByName (TableStore τ) × χ
  | [], stores, h => (stores, h)
  | name :: names, stores, h =>
    let (stores, h) := truncateStore ops stores h name
    truncateStores ops names stores h

/-- `truncate_table` (`snapshot.rs:994-1018`), of a table that is not empty. -/
def truncateTable (ops : TreeOps ε ρ τ χ) (s : Snapshot κ τ) (name : Name) (h : χ) : Snapshot κ τ × χ :=
  let (stores, h) := truncateStore ops s.stores h name
  let (indexStores, h) := truncateStores ops (s.indexNames name) s.indexStores h
  ({ s with stores, indexStores }.markStatisticsStale name, h)

/-- `put_index_store` (`snapshot.rs:1349-1359`), of a store that was just made. -/
def putIndexStore (ops : TreeOps ε ρ τ χ) (s : Snapshot κ τ) (name : Name) (cap : Cap)
    (shape : LeafShape) (h : χ) : Snapshot κ τ × χ :=
  let (indexStores, h) := putStore ops name (emptyStore ops cap shape) s.indexStores h
  ({ s with indexStores }, h)

/-- An index's store goes (`snapshot.rs:1194`). -/
def removeIndexStore (ops : TreeOps ε ρ τ χ) (s : Snapshot κ τ) (name : Name) (h : χ) :
    Snapshot κ τ × χ :=
  let (indexStores, h) := dropStore ops name s.indexStores h
  ({ s with indexStores }, h)

/-- `put_index` (`snapshot.rs:1051-1070`). -/
def putIndex (ops : TreeOps ε ρ τ χ) (s : Snapshot κ τ) (tableKey : Name) (d : IndexDef κ) (cap : Cap)
    (shape : LeafShape) (h : χ) : Snapshot κ τ × χ :=
  let (s, h) := s.bumpCatGen.putIndexStore ops d.name cap shape h
  (s.modifyTable tableKey fun table =>
    let pos := (table.indexes.findIdx? fun i => d.name < i.name).getD table.indexes.length
    { table with indexes := table.indexes.insertIdx pos d }, h)

/-- `remove_index` (`snapshot.rs:1556-1562`). -/
def removeIndex (ops : TreeOps ε ρ τ χ) (s : Snapshot κ τ) (tableKey nameKey : Name) (h : χ) :
    Snapshot κ τ × χ :=
  (s.bumpCatGen.modifyTable tableKey fun table =>
    { table with indexes := table.indexes.filter (·.name ≠ nameKey) }).removeIndexStore ops nameKey h

/-- The foreign keys and sequences that follow a renamed table. -/
def followRename (s : Snapshot κ τ) (oldKey new : Name) : Snapshot κ τ :=
  { s with
    tables := SortedMap.mapValues (fun t => { t with foreignKeys := t.foreignKeys.map fun fk =>
      if fk.refTable = oldKey then { fk with refTable := new } else fk }) s.tables
    sequences := SortedMap.mapValues (fun seq => { seq with ownedBy := seq.ownedBy.map fun owner =>
      if owner.table = oldKey then { owner with table := new } else owner }) s.sequences }

/-- A table's entry goes from its name, and its statistics move to the new one. -/
def renameEntry (s : Snapshot κ τ) (oldKey newKey : Name) : Snapshot κ τ :=
  { s with
    tables := SortedMap.erase oldKey s.tables
    statistics := match SortedMap.get oldKey s.statistics with
      | none => s.statistics
      | some columns => SortedMap.insert newKey columns (SortedMap.erase oldKey s.statistics) }

/-- What moves with a table's name. -/
def renameTable (ops : TreeOps ε ρ τ χ) (s : Snapshot κ τ) (oldKey newKey : Name) (h : χ) :
    Snapshot κ τ × χ :=
  let (stores, h) := renameStore ops oldKey newKey s.stores h
  ({ s with stores }.renameEntry oldKey newKey, h)

/-- An index's store, when a constraint takes it to a new name. -/
def renameIndexStore (ops : TreeOps ε ρ τ χ) : Option (Name × Name) → ByName (TableStore τ) → χ →
    ByName (TableStore τ) × χ
  | none, indexStores, h => (indexStores, h)
  | some (old, new), indexStores, h => renameStore ops old new indexStores h

/-- A table's new entry, with the store of a renamed index. -/
def alterEntry (ops : TreeOps ε ρ τ χ) (s : Snapshot κ τ) (newKey : Name) (table : Table κ)
    (indexRename : Option (Name × Name)) (h : χ) : Snapshot κ τ × χ :=
  let (indexStores, h) := renameIndexStore ops indexRename s.indexStores h
  ({ s with tables := SortedMap.insert newKey table s.tables, indexStores }, h)

/-- `alter_table_catalog` (`snapshot.rs:1091-1156`). -/
def alterTableCatalog (ops : TreeOps ε ρ τ χ) (s : Snapshot κ τ) (oldKey : Name) (table : Table κ)
    (rename : Bool) (indexRename : Option (Name × Name)) (h : χ) : Snapshot κ τ × χ :=
  if rename then
    let (s, h) := s.bumpCatGen.renameTable ops oldKey table.name h
    let (s, h) := s.alterEntry ops table.name table indexRename h
    (s.followRename oldKey table.name, h)
  else s.bumpCatGen.alterEntry ops oldKey table indexRename h

end Snapshot

/-- Which trees of a snapshot: those of the tables, or those of the indexes. -/
inductive Side where
  | table
  | index
  deriving DecidableEq

def Snapshot.side (s : Snapshot κ τ) : Side → ByName (TableStore τ)
  | .table => s.stores
  | .index => s.indexStores

def Snapshot.setSide (s : Snapshot κ τ) : Side → ByName (TableStore τ) → Snapshot κ τ
  | .table, stores => { s with stores }
  | .index, indexStores => { s with indexStores }

/-- A write to a snapshot. What rewrites an index, or a table with its rows, makes an empty store and
    fills it by edits. -/
inductive Mutation (ρ κ : Type) where
  | putColumnStatistics (table : Name) (column : Nat) (statistics : ColumnStatistics κ)
  | markStatisticsStale (table : Name)
  | clearStatistics (table : Name)
  | clearColumnStatistics (table : Name) (column : Nat)
  | putType (ty : CompositeType κ)
  | removeType (key : Name)
  | putSequence (seq : SequenceDef κ)
  | removeSequence (key : Name)
  | putView (view : ViewDef κ)
  | removeView (key : Name)
  | repinCollations (loaded : List (Collation κ))
  | setDefaultCollation (name : Option Name)
  | removeForeignKey (tableKey fkName : Name)
  | setColumnDefaultExpr (tableKey : Name) (column : Nat) (expr : κ)
  | cascadeDroppedUniqueFks (parent : Name) (dropped : List (List Nat))
  | remapAlterColumnDependents (parent : Name) (originalToNew : List (Option Nat)) (pending : List Name)
  | putTable (table : Table κ) (cap : Cap) (shape : LeafShape)
  | removeTable (key : Name)
  | truncateTable (name : Name)
  | putIndexStore (name : Name) (cap : Cap) (shape : LeafShape)
  | removeIndexStore (name : Name)
  | putIndex (tableKey : Name) (d : IndexDef κ) (cap : Cap) (shape : LeafShape)
  | removeIndex (tableKey nameKey : Name)
  | alterTableCatalog (oldKey : Name) (table : Table κ) (rename : Bool) (indexRename : Option (Name × Name))
  | allocRowid (side : Side) (name : Name)
  | bumpRowidTo (side : Side) (name : Name) (n : Int)
  | edit (side : Side) (name : Name) (e : Edit ρ)

/-- A store of a snapshot, written to. A name without a store panics. -/
def Snapshot.storeMut (s : Snapshot κ τ) (side : Side) (name : Name) (h : χ)
    (f : TableStore τ → Except (Fault ε) Unit × TableStore τ × χ) :
    Except (Fault ε) Unit × Snapshot κ τ × χ :=
  match SortedMap.get name (s.side side) with
  | none => (.error .panic, s, h)
  | some st =>
    let (res, st, h) := f st
    (res, s.setSide side (SortedMap.insert name st (s.side side)), h)

/-- An edit of a store's tree. -/
def TableStore.edit (ops : TreeOps ε ρ τ χ) (st : TableStore τ) (h : χ) (e : Edit ρ) :
    Except (Fault ε) Unit × TableStore τ × χ :=
  let (res, rows, h) := ops.edit st.cap st.shape h st.rows e
  (res.map fun _ => (), { st with rows }, h)

/-- A write, and whether it failed. -/
def Mutation.apply (ops : TreeOps ε ρ τ χ) (s : Snapshot κ τ) (h : χ) :
    Mutation ρ κ → Except (Fault ε) Unit × Snapshot κ τ × χ
  | .putColumnStatistics table column statistics =>
    (.ok (), s.putColumnStatistics table column statistics, h)
  | .markStatisticsStale table => (.ok (), s.markStatisticsStale table, h)
  | .clearStatistics table => (.ok (), s.clearStatistics table, h)
  | .clearColumnStatistics table column => (.ok (), s.clearColumnStatistics table column, h)
  | .putType ty => (.ok (), s.putType ty, h)
  | .removeType key => (.ok (), s.removeType key, h)
  | .putSequence seq => (.ok (), s.putSequence seq, h)
  | .removeSequence key => (.ok (), s.removeSequence key, h)
  | .putView view => (.ok (), s.putView view, h)
  | .removeView key => (.ok (), s.removeView key, h)
  | .repinCollations loaded => (.ok (), s.repinCollations loaded, h)
  | .setDefaultCollation name => (.ok (), s.setDefaultCollation name, h)
  | .removeForeignKey tableKey fkName => (.ok (), s.removeForeignKey tableKey fkName, h)
  | .setColumnDefaultExpr tableKey column expr => (.ok (), s.setColumnDefaultExpr tableKey column expr, h)
  | .cascadeDroppedUniqueFks parent dropped => (.ok (), s.cascadeDroppedUniqueFks parent dropped, h)
  | .remapAlterColumnDependents parent originalToNew pending =>
    (.ok (), s.remapAlterColumnDependents parent originalToNew pending, h)
  | .putTable table cap shape => (.ok (), s.putTable ops table cap shape h)
  | .removeTable key => (.ok (), s.removeTable ops key h)
  | .truncateTable name => (.ok (), s.truncateTable ops name h)
  | .putIndexStore name cap shape => (.ok (), s.putIndexStore ops name cap shape h)
  | .removeIndexStore name => (.ok (), s.removeIndexStore ops name h)
  | .putIndex tableKey d cap shape => (.ok (), s.putIndex ops tableKey d cap shape h)
  | .removeIndex tableKey nameKey => (.ok (), s.removeIndex ops tableKey nameKey h)
  | .alterTableCatalog oldKey table rename indexRename =>
    (.ok (), s.alterTableCatalog ops oldKey table rename indexRename h)
  | .allocRowid side name => s.storeMut side name h fun st => (.ok (), st.allocRowid, h)
  | .bumpRowidTo side name n => s.storeMut side name h fun st => (.ok (), st.bumpRowidTo n, h)
  | .edit side name e => s.storeMut side name h fun st => st.edit ops h e

end Jed.Txn
