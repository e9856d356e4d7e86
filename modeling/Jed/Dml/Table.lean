import Jed.Lib.LastWrite

/-!
# Write statements on a table

A table's rows and index stores, and how a write statement changes them: phase 1 validates the actions it
has planned against the state it reads, phase 2 writes the rows and then moves the index entries
(`executor/dml.rs`, `executor/merge.rs`). A row is stored under its storage key; an index entry is its key
slots (or term) and the storage key of its row.
-/

namespace Jed.Dml

open LastWrite

/-- An error that ends a statement. -/
inductive Fault where
  | uniqueViolation (table constraint : String)
  | dataCorrupted (message : String)
  | raised (message : String)
  deriving DecidableEq

/-- `ResolvedIndex`: the entry keys of a row before its storage key (`index_entry_keys`: none when a
partial index leaves the row out, one per term for GIN), and the uniqueness probe (`index_prefix_key`: none
when a key is NULL or the row is left out). A unique index is an ordered one, so the probe is the key. -/
structure Index (P ρ : Type) where
  name : String
  unique : Bool
  keys : ρ → Except Fault (List P)
  probe : ρ → Except Fault (Option P)
  probe_keys : ∀ {row : ρ} {p : P}, unique = true → probe row = .ok (some p) → keys row = .ok [p]

/-- A table's definition: its key (`encode_pk_key`), or rowids when it has none. -/
structure TableDef (K ρ : Type) where
  name : String
  pk : Option (ρ → Except Fault K)
  rowid : Nat → K
  rowid_injective : Function.Injective rowid

/-- An index with its store. -/
structure IndexStore (P K ρ : Type) where
  index : Index P ρ
  entries : Store (P × K) Unit

/-- A table's stores. -/
structure Table (P K ρ : Type) where
  rows : Store K ρ
  nextRowid : Nat
  indexes : List (IndexStore P K ρ)

/-- An action planned by phase 1 (`Planned` of `merge.rs`; the other statements plan lists of one kind of
it). -/
inductive Planned (K ρ : Type) where
  | insert (row : ρ)
  | update (oldKey newKey : K) (newRow oldRow : ρ)
  | delete (key : K) (oldRow : ρ)

/-- An action whose storage keys are known. -/
inductive Action (K ρ : Type) where
  | insert (key : K) (row : ρ)
  | update (oldKey newKey : K) (newRow oldRow : ρ)
  | delete (key : K) (oldRow : ρ)

namespace Action

variable {K ρ : Type}

/-- The stored row the action takes away, under its key. -/
def old? : Action K ρ → Option (K × ρ)
  | .insert _ _ => none
  | .update oldKey _ _ oldRow => some (oldKey, oldRow)
  | .delete key oldRow => some (key, oldRow)

/-- The row the action places, under its key. -/
def new? : Action K ρ → Option (K × ρ)
  | .insert key row => some (key, row)
  | .update _ newKey newRow _ => some (newKey, newRow)
  | .delete _ _ => none

end Action

/-- The write statements. An UPDATE knows whether it assigns a key member (`pk_changed`). -/
inductive Kind where
  | insert
  | onConflict
  | update (pkChanged : Bool)
  | delete
  | merge
  deriving DecidableEq

/-- What a write reads: the state its WITH statement began with, or the working state. -/
inductive View where
  | pin
  | working
  deriving DecidableEq

/-- A write: a whole statement, a data-modifying part of a WITH, or a child write of a referential
action. -/
structure Part (K ρ : Type) where
  kind : Kind
  view : View
  planned : List (Planned K ρ)

variable {P K ρ : Type} [DecidableEq P] [DecidableEq K]

/-- `pkey_name`. -/
def pkeyName (table : String) : String := table ++ "_pkey"

/-- The storage keys of the inserted rows: from the primary key, or rowids allocated in order. -/
def resolve (d : TableDef K ρ) : Nat → List (Planned K ρ) → Except Fault (List (Action K ρ) × Nat)
  | next, [] => .ok ([], next)
  | next, .update oldKey newKey newRow oldRow :: ps => do
    let (actions, next) ← resolve d next ps
    return (.update oldKey newKey newRow oldRow :: actions, next)
  | next, .delete key oldRow :: ps => do
    let (actions, next) ← resolve d next ps
    return (.delete key oldRow :: actions, next)
  | next, .insert row :: ps =>
    match d.pk with
    | some pk => do
      let key ← pk row
      let (actions, next) ← resolve d next ps
      return (.insert key row :: actions, next)
    | none => do
      let (actions, after) ← resolve d (next + 1) ps
      return (.insert (d.rowid next) row :: actions, after)

/-- The keys of the rows the actions take away. -/
def oldKeys (actions : List (Action K ρ)) : List K := actions.filterMap fun a => a.old?.map (·.1)

/-- The placed rows, under their keys. -/
def placed (actions : List (Action K ρ)) : List (K × ρ) := actions.filterMap Action.new?

/-- The rows an INSERT or the insert half of an upsert places. -/
def inserted (actions : List (Action K ρ)) : List (K × ρ) :=
  actions.filterMap fun a => match a with
    | .insert key row => some (key, row)
    | _ => none

/-- `rekeyed` of an upsert: some update moves its row. -/
def rekeyed (actions : List (Action K ρ)) : Bool :=
  actions.any fun a => match a with
    | .update oldKey newKey _ _ => oldKey != newKey
    | _ => false

/-- The end-state check of the primary key: each key new in the statement, and free in the store or
vacated. -/
def checkPk (d : TableDef K ρ) (store : Store K ρ) (vacated : List K) : List K → List K → Except Fault Unit
  | _, [] => .ok ()
  | seen, k :: ks =>
    if ((store.lookup k).isSome && !decide (k ∈ vacated)) || decide (k ∈ seen) then
      .error (.uniqueViolation d.name (pkeyName d.name))
    else checkPk d store vacated (k :: seen) ks

/-- The end-state check of a unique index: each probe new in the statement, and every entry with it of a
vacated row. -/
def checkUnique (d : TableDef K ρ) (s : IndexStore P K ρ) (vacated : List K) :
    List P → List ρ → Except Fault Unit
  | _, [] => .ok ()
  | seen, row :: rows => do
    match ← s.index.probe row with
    | none => checkUnique d s vacated seen rows
    | some p =>
      if p ∈ seen ∨ ∃ e ∈ s.entries.keys, e.1 = p ∧ e.2 ∉ vacated then
        .error (.uniqueViolation d.name s.index.name)
      else checkUnique d s vacated (p :: seen) rows

/-- The unique checks of every unique index. -/
def checkUniques (d : TableDef K ρ) (view : Table P K ρ) (vacated : List K) (rows : List ρ) :
    Except Fault Unit :=
  view.indexes.forM fun s => if s.index.unique then checkUnique d s vacated [] rows else .ok ()

/-- The key and uniqueness checks of each statement: `insert_rows` (`dml.rs:1423-1461`), `execute_update` (`dml.rs:3912-3922`), `insert_rows_on_conflict` (`dml.rs:2273-2346`), `execute_merge` (`merge.rs:236-245`). -/
def validate (d : TableDef K ρ) (view : Table P K ρ) (actions : List (Action K ρ)) : Kind → Except Fault Unit
  | .insert => do
    if d.pk.isSome then checkPk d view.rows [] [] ((placed actions).map (·.1))
    checkUniques d view [] ((placed actions).map (·.2))
  | .update pkChanged => do
    if pkChanged then checkPk d view.rows (oldKeys actions) [] ((placed actions).map (·.1))
    checkUniques d view (oldKeys actions) ((placed actions).map (·.2))
  | .onConflict => do
    if d.pk.isSome && (!(inserted actions).isEmpty || rekeyed actions) then
      if rekeyed actions then checkPk d view.rows (oldKeys actions) [] ((placed actions).map (·.1))
      else checkPk d view.rows [] [] ((inserted actions).map (·.1))
    checkUniques d view (oldKeys actions) ((placed actions).map (·.2))
  | .delete => .ok ()
  | .merge => do
    if d.pk.isSome then checkPk d view.rows (oldKeys actions) [] ((placed actions).map (·.1))
    checkUniques d view (oldKeys actions) ((placed actions).map (·.2))

/-- Whether the statement takes an updated row out and puts it in again, or replaces it in place. -/
def rekeys (actions : List (Action K ρ)) (oldKey newKey : K) : Kind → Bool
  | .update pkChanged => pkChanged
  | .onConflict => rekeyed actions
  | _ => oldKey != newKey

/-- The removals that come before the rows are placed. -/
def vacate (kind : Kind) (actions : List (Action K ρ)) (a : Action K ρ) : Option (Write K ρ) :=
  match a with
  | .insert _ _ => none
  | .update oldKey newKey _ _ => if rekeys actions oldKey newKey kind then some (.remove oldKey) else none
  | .delete key _ => some (.remove key)

/-- How an action places its row. -/
def place (kind : Kind) (actions : List (Action K ρ)) (a : Action K ρ) : Option (Write K ρ) :=
  match a with
  | .insert key row => some (.insert key row)
  | .update oldKey newKey newRow _ =>
    some (if rekeys actions oldKey newKey kind then .insert newKey newRow else .replace newKey newRow)
  | .delete _ _ => none

/-- The row writes of phase 2. -/
def rowWrites (kind : Kind) (actions : List (Action K ρ)) : List (Write K ρ) :=
  actions.filterMap (vacate kind actions) ++ actions.filterMap (place kind actions)

/-- The entries of a row in an index, under a storage key (`index_entries`). -/
def entryKeys (ix : Index P ρ) (r : Option (K × ρ)) : Except Fault (List (P × K)) :=
  match r with
  | none => .ok []
  | some (k, row) => do
    let keys ← ix.keys row
    return keys.map (·, k)

/-- One action's entry removals and insertions: an entry of both the old and the new row stays. -/
def entryMoves (ix : Index P ρ) (a : Action K ρ) :
    Except Fault (List (Write (P × K) Unit) × List (Write (P × K) Unit)) := do
  let oldEks ← entryKeys ix a.old?
  let newEks ← entryKeys ix a.new?
  return ((oldEks.filter (· ∉ newEks)).map .remove, (newEks.filter (· ∉ oldEks)).map fun e => .insert e ())

/-- Whether the entries move action by action, or all removals come first. -/
def interleaved (actions : List (Action K ρ)) : Kind → Bool
  | .update pkChanged => !pkChanged
  | .onConflict => !rekeyed actions
  | _ => false

/-- The entry writes of phase 2, for one index. -/
def entryWrites (kind : Kind) (actions : List (Action K ρ)) (ix : Index P ρ) :
    Except Fault (List (Write (P × K) Unit)) := do
  let moves ← actions.mapM (entryMoves ix)
  if interleaved actions kind then return moves.flatMap fun m => m.1 ++ m.2
  else return moves.flatMap (·.1) ++ moves.flatMap (·.2)

/-- What an insertion of a present entry raises. -/
def entryFault (d : TableDef K ρ) (ix : Index P ρ) (actions : List (Action K ρ)) (kind : Kind) : Fault :=
  if interleaved actions kind || (kind == .merge && !ix.unique) then
    .dataCorrupted "index entry keys are unique (storage-key suffix)"
  else .uniqueViolation d.name ix.name

/-- Phase 2: the rows (`dml.rs:1553-1601`, `2467-2547`, `3862-3872`, `4581-4633`, `merge.rs:1544-1613`),
then each index. -/
def write (d : TableDef K ρ) (kind : Kind) (actions : List (Action K ρ)) (next : Nat) (t : Table P K ρ) :
    Except Fault (Table P K ρ) := do
  let rows ← run (.uniqueViolation d.name (pkeyName d.name)) t.rows (rowWrites kind actions)
  let indexes ← t.indexes.mapM fun s => do
    let writes ← entryWrites kind actions s.index
    let entries ← run (entryFault d s.index actions kind) s.entries writes
    return { s with entries := entries }
  return ⟨rows, next, indexes⟩

/-- The table a write reads, in a statement that began at `pin` and has reached `t`. -/
def View.read (v : View) (pin t : Table P K ρ) : Table P K ρ :=
  match v with
  | .pin => pin
  | .working => t

/-- A write of a statement that began at `pin` and has reached `t`. -/
def Part.exec (d : TableDef K ρ) (pin t : Table P K ρ) (part : Part K ρ) :
    Except Fault (Table P K ρ × List (Action K ρ)) := do
  let (actions, next) ← resolve d t.nextRowid part.planned
  validate d (part.view.read pin t) actions part.kind
  let t ← write d part.kind actions next t
  return (t, actions)

end Jed.Dml
