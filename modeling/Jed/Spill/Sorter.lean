import Jed.Lib.Results
import Jed.Lib.StableSort
import Jed.Bytes

/-!
# The external merge sort

`ORDER BY` with a work-memory budget (`spill.rs:38-467`). A sorter keeps the rows pushed to it; when
they exceed the budget, or the account refuses the memory of a row, it writes them to a scratch file
as one sorted run. Runs of one generation that lie side by side are merged into one of the next. The
rows come out by a merge of the runs and of the rows still in memory.
-/

namespace Jed.Spill

open StableSort

/-- The codes of the errors. -/
inductive SortError where
  /-- `54P05`: the account refuses the memory, and there is nowhere to spill to. -/
  | outOfMemory
  /-- `58030`: a run cannot be read back. -/
  | ioError
  /-- An index past the end of a vector. -/
  | panic
  deriving DecidableEq

/-- `Row`. -/
abbrev Row (V : Type) := List V

/-- `SortKey`, without the collation, which is `None` here. -/
structure SortKey where
  idx : Nat
  descending : Bool
  nullsFirst : Bool
  deriving DecidableEq

/-- What the sorter takes from elsewhere: the order of two values, the bytes a row holds, and how
    a row is written to a run and read back from the bytes that follow. -/
structure Rows (V : Type) where
  keyCmp : V → V → Bool → Bool → Ordering
  rowBytes : Row V → Nat
  writeRow : Row V → Bytes
  readRow : Bytes → Option (Row V × Bytes)

/-- A run: the number of rows, then the rows. -/
structure SpillFile where
  count : Nat
  rows : Bytes
  deriving DecidableEq

/-- `Sorter`. -/
structure Sorter (V : Type) where
  keys : List SortKey
  budget : Nat
  /-- Whether there is a spill host. -/
  spill : Bool
  buf : List (Row V)
  bufBytes : Nat
  runs : List SpillFile
  runLevels : List Nat
  total : Nat

/-- `Source`: a run read back row by row, or the rows in memory. -/
inductive Source (V : Type) where
  | file (reader : Bytes) (remaining : Nat)
  | mem (rows : List (Row V))

/-- `HeapItem`. -/
structure HeapItem (V : Type) where
  row : Row V
  source : Nat
  keys : List SortKey

/-- `Merger`. The heap is the collection of its items. -/
structure Merger (V : Type) where
  sources : List (Source V)
  heap : List (HeapItem V)

/-- `SortedRows`. -/
inductive SortedRows (V : Type) where
  | inMemory (rows : List (Row V))
  | merge (m : Merger V)

section

variable {V : Type} [Inhabited V] (env : Rows V)

/-- `cmp_rows`: the first key that tells the rows apart. A value past the row, where the source
    panics, reads as the default. -/
def cmpRows : List SortKey → Row V → Row V → Ordering
  | [], _, _ => .eq
  | key :: keys, a, b =>
    (env.keyCmp (a.getD key.idx default) (b.getD key.idx default) key.descending
      key.nullsFirst).then (cmpRows keys a b)

/-- The order of `HeapItem`, reversed: the item that comes first is the greatest. -/
def HeapItem.cmp (x y : HeapItem V) : Ordering :=
  ((cmpRows env x.keys x.row y.row).then (compare x.source y.source)).swap

/-- `BinaryHeap::pop`: the greatest item, and the others. -/
def popMax : List (HeapItem V) → Option (HeapItem V × List (HeapItem V))
  | [] => none
  | item :: heap =>
    match popMax heap with
    | none => some (item, [])
    | some (top, others) =>
      if item.cmp env top = .lt then some (top, item :: others) else some (item, heap)

/-- `Source::open_file`. -/
def Source.openFile (file : SpillFile) : Source V := .file file.rows file.count

/-- `Source::next`. -/
def Source.next : Source V → Except SortError (Option (Row V) × Source V)
  | .mem [] => .ok (none, .mem [])
  | .mem (row :: rows) => .ok (some row, .mem rows)
  | .file reader 0 => .ok (none, .file reader 0)
  | .file reader (remaining + 1) =>
    match env.readRow reader with
    | none => .error .ioError
    | some (row, reader) => .ok (some row, .file reader remaining)

/-- The item for the row read from source `i`. -/
def headItem (keys : List SortKey) (i : Nat) : Option (Row V) → List (HeapItem V)
  | none => []
  | some row => [⟨row, i, keys⟩]

/-- `prime`: the first row of every source, the sources counted from `i`. -/
def prime (keys : List SortKey) : Nat → List (Source V) → Except SortError (Merger V)
  | _, [] => .ok ⟨[], []⟩
  | i, source :: sources => do
    let (row, source) ← source.next env
    let rest ← prime keys (i + 1) sources
    return ⟨source :: rest.sources, headItem keys i row ++ rest.heap⟩

/-- `Merger::next`. -/
def Merger.next (m : Merger V) : Except SortError (Option (Row V) × Merger V) :=
  match popMax env m.heap with
  | none => .ok (none, m)
  | some (item, heap) =>
    match m.sources[item.source]? with
    | none => .error .panic
    | some source => do
      let (row, source) ← source.next env
      return (some item.row,
        ⟨m.sources.set item.source source, headItem item.keys item.source row ++ heap⟩)

/-- The rows until `next` has no more, `bound` calls at most. -/
def Merger.drain : Nat → Merger V → Except SortError (List (Row V))
  | 0, _ => .ok []
  | bound + 1, m => do
    match ← m.next env with
    | (none, _) => return []
    | (some row, m) => return row :: (← m.drain bound)

/-- A run of the rows. -/
def writeRun (rows : List (Row V)) : SpillFile :=
  ⟨rows.length, (rows.map env.writeRow).flatten⟩

/-- `merge_pair_to_file`. The header is the count it is given; the rows are those of the merge, which
    is over within one more call than there are rows. -/
def mergePairToFile (sources : List (Source V)) (count : Nat) (keys : List SortKey) :
    Except SortError SpillFile := do
  let merger ← prime env keys 0 sources
  let rows ← merger.drain env (count + 1)
  return ⟨count, (rows.map env.writeRow).flatten⟩

namespace Sorter

variable (s : Sorter V)

/-- `Sorter::new`. -/
def new (keys : List SortKey) (budget : Nat) (spill : Bool) : Sorter V :=
  { keys, budget, spill, buf := [], bufBytes := 0, runs := [], runLevels := [], total := 0 }

/-- `can_spill`. -/
def canSpill : Bool := s.spill && decide (0 < s.budget)

/-- Whether the last two runs are of one generation, and then the generation. -/
def lastLevel : Option Nat :=
  let n := s.runLevels.length
  match s.runLevels[n - 1]?, s.runLevels[n - 2]? with
  | some a, some b => if 2 ≤ n ∧ a = b then some a else none
  | _, _ => none

/-- One turn of the compaction: the last two runs become one. -/
def compactOnce (level : Nat) : Except SortError (Sorter V) := do
  let n := s.runLevels.length
  match s.runs[n - 2]?, s.runs[n - 1]? with
  | some a, some b =>
    let merged ← mergePairToFile env [.openFile a, .openFile b] (a.count + b.count) s.keys
    return { s with runs := s.runs.take (n - 2) ++ [merged]
                    runLevels := s.runLevels.take (n - 2) ++ [level + 1] }
  | _, _ => throw .panic

/-- The compaction loop of `spill_run`. Every turn leaves a run less, so as many turns as there are
    runs are enough. -/
def compact : Nat → Sorter V → Except SortError (Sorter V)
  | 0, s => .ok s
  | turns + 1, s =>
    match s.lastLevel with
    | none => .ok s
    | some level => do compact turns (← s.compactOnce env level)

/-- `spill_run`. -/
def spillRun : Except SortError (Sorter V) :=
  compact env (s.runLevels.length + 1)
    { s with runs := s.runs ++ [writeRun env (stableSort (cmpRows env s.keys) s.buf)]
             runLevels := s.runLevels ++ [0]
             buf := []
             bufBytes := 0 }

/-- `push`. `rejected` is the account's answer to the reservation for the row. -/
def push (row : Row V) (rejected : Bool) : Except SortError (Sorter V) :=
  if s.canSpill then
    let bufBytes := s.bufBytes + env.rowBytes row
    let s := { s with total := s.total + 1, buf := s.buf ++ [row], bufBytes }
    if rejected ∨ s.budget < bufBytes then s.spillRun env else .ok s
  else if rejected then .error .outOfMemory
  else .ok { s with total := s.total + 1, buf := s.buf ++ [row] }

/-- `finish`. -/
def finish : Except SortError (SortedRows V) :=
  let buf := stableSort (cmpRows env s.keys) s.buf
  if s.runs.isEmpty then .ok (.inMemory buf)
  else do return .merge (← prime env s.keys 0 (s.runs.map .openFile ++ [.mem buf]))

/-- A row for each push, and the account's answer to it. A push the account stops changes nothing.
    The rows the sorter took are given back. -/
def pushAll : Sorter V → List (Row V × Bool) → Except SortError (Sorter V × List (Row V))
  | s, [] => .ok (s, [])
  | s, (row, rejected) :: pushes =>
    match s.push env row rejected with
    | .error .outOfMemory => pushAll s pushes
    | .error e => .error e
    | .ok s => do
      let (s, taken) ← pushAll s pushes
      return (s, row :: taken)

end Sorter

/-- `SortedRows::next`. -/
def SortedRows.next : SortedRows V → Except SortError (Option (Row V) × SortedRows V)
  | .inMemory [] => .ok (none, .inMemory [])
  | .inMemory (row :: rows) => .ok (some row, .inMemory rows)
  | .merge m => do
    let (row, m) ← m.next env
    return (row, .merge m)

/-- What `n` calls of `next` return. -/
def SortedRows.nexts : Nat → SortedRows V → Except SortError (List (Option (Row V)))
  | 0, _ => .ok []
  | n + 1, rows => do
    let (row, rows) ← rows.next env
    return row :: (← rows.nexts n)

end

end Jed.Spill
