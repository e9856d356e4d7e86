import Jed.Lib.SortedMap
import Jed.PMap.Size

/-!
# The B+tree as a value

The persistent tree an insert or a remove computes, with every node it changes rebuilt: the
path-copying reading of `node_insert`, `node_remove`, `rebalance_child` and `merge_at`. A tree is
indexed by its height, so all its leaves are at one depth. `Jed.PMap.Heap` has the code as it runs
on shared nodes, and `Jed.PMap.SimMap` shows that it computes these values.

A function returns `none` where the code would panic: an `expect` on a missing split point or an
index outside a vector.
-/

namespace Jed.PMap

variable {ρ : Type}

/-- A leaf record next to its key: the value row and the record's on-disk weight. -/
structure Rec (ρ : Type) where
  row : ρ
  weight : Nat
  deriving DecidableEq, Repr

/-- A leaf's records (`keys`, `vals` and `weights`, `pmap.rs:176-196`). -/
abbrev Leaf (ρ : Type) := List (Bytes × Rec ρ)

/-- An interior node: separators and children (`pmap.rs:169-175`). -/
structure Inner (τ : Type) where
  keys : List Bytes
  children : List τ
  deriving DecidableEq, Repr

/-- A tree of height `n`. -/
def Tree (ρ : Type) : Nat → Type
  | 0 => Leaf ρ
  | n + 1 => Inner (Tree ρ n)

/-- What inserting into a subtree leaves (`Ins`, `pmap.rs:519-530`): one node, or two and the
    separator between them. -/
inductive Grown (τ : Type) where
  | whole (node : τ)
  | split (left : τ) (sep : Bytes) (right : τ)
  deriving DecidableEq, Repr

/-- The nodes of a `Grown`, in order. -/
def Grown.nodes {τ : Type} : Grown τ → List τ
  | .whole t => [t]
  | .split left _ right => [left, right]

/-- `Node::search` (`pmap.rs:367-379`), the binary search between `lo` and `hi`: `ok i` where `key`
    sits, else `error i` for its insertion slot. -/
def search (keyAt : Nat → Bytes) (key : Bytes) (lo hi : Nat) : Except Nat Nat :=
  if lo < hi then
    let mid := (lo + hi) / 2
    if keyAt mid < key then search keyAt key (mid + 1) hi
    else if key < keyAt mid then search keyAt key lo mid
    else .ok mid
  else .error lo
termination_by hi - lo

/-- `search` over a leaf's keys. -/
def searchKeys (keys : List Bytes) (key : Bytes) : Except Nat Nat :=
  search (fun i => keys.getD i []) key 0 keys.length

/-- `Node::child_slot` (`pmap.rs:384-386`): `partition_point(sep ≤ key)`. -/
def childSlot (keys : List Bytes) (key : Bytes) : Nat :=
  (keys.takeWhile (fun k => k ≤ key)).length

/-- `build_leaf` (`pmap.rs:634-658`). -/
def buildLeaf (es : Leaf ρ) (cap : Cap) (shape : LeafShape) (edited : Option Nat) :
    Grown (Leaf ρ) :=
  match leafSplitPoint (es.map (·.2.weight)) cap shape edited with
  | none => .whole es
  | some m =>
    match es.drop m with
    | [] => .whole es
    | e :: right => .split (es.take m) e.1 (e :: right)

/-- `build_interior` (`pmap.rs:672-720`). -/
def buildInterior {τ : Type} (t : Inner τ) (cap : Cap) (edited : Option Nat) :
    Option (Grown (Inner τ)) :=
  if interiorPayload cap t.keys ≤ cap.c || t.keys.length < 2 then some (.whole t)
  else do
    let m ← interiorSplitPoint t.keys cap edited
    let sep ← t.keys[m]?
    some (.split ⟨t.keys.take m, t.children.take (m + 1)⟩ sep
      ⟨t.keys.drop (m + 1), t.children.drop (m + 1)⟩)

/-- The leaf case of `node_insert` (`pmap.rs:1384-1430`): the edited records and the replaced row. -/
def leafInsert (es : Leaf ρ) (key : Bytes) (rec : Rec ρ) : Leaf ρ × Nat × Option ρ :=
  match searchKeys (es.map Prod.fst) key with
  | .ok i => (es.modify i (fun e => (e.1, rec)), i, (es[i]?).map (·.2.row))
  | .error i => (es.insertIdx i (key, rec), i, none)

/-- `node_insert` (`pmap.rs:1372-1504`). -/
def insertTree (cap : Cap) (shape : LeafShape) : (n : Nat) → Tree ρ n → Bytes → Rec ρ →
    Option (Grown (Tree ρ n) × Option ρ)
  | 0, (es : Leaf ρ), key, rec =>
    let (es', i, old) := leafInsert es key rec
    some (buildLeaf es' cap shape (some i), old)
  | n + 1, (t : Inner (Tree ρ n)), key, rec => do
    let i := childSlot t.keys key
    let c ← t.children[i]?
    let (sub, old) ← insertTree cap shape n c key rec
    match sub with
    | .whole c' => some (.whole ⟨t.keys, t.children.set i c'⟩, old)
    | .split left sep right =>
      let g ← buildInterior
        ⟨t.keys.insertIdx i sep, (t.children.set i left).insertIdx (i + 1) right⟩ cap (some i)
      some (g, old)

/-- `Node::payload` (`pmap.rs:357-363`). -/
def payload (cap : Cap) (shape : LeafShape) : (n : Nat) → Tree ρ n → Nat
  | 0, (es : Leaf ρ) => leafPayload (es.map (·.2.weight)) shape
  | _ + 1, (t : Inner (Tree ρ _)) => interiorPayload cap t.keys

/-- `underfull` (`pmap.rs:1508-1510`). -/
def underfull (cap : Cap) (shape : LeafShape) (n : Nat) (t : Tree ρ n) : Bool :=
  payload cap shape n t < cap.c / 2

/-- The payload the parent is left with when a separator of `sepLen` bytes replaces separator `j`
    (`parent_with`, `pmap.rs:1716-1719`). -/
def parentWith (cap : Cap) (keys : List Bytes) (j sepLen : Nat) : Nat :=
  interiorPayload cap keys - (keys.getD j []).length + sepLen

/-- Replace children `j` and `j + 1` by the merged node, or by its two halves (`pmap.rs:1777-1792`). -/
def replacePair {τ : Type} (t : Inner τ) (j : Nat) : Grown τ → Inner τ
  | .whole m => ⟨t.keys.eraseIdx j, (t.children.set j m).eraseIdx (j + 1)⟩
  | .split left sep right => ⟨t.keys.set j sep, (t.children.set j left).set (j + 1) right⟩

/-- Whether the split of a merged node would hand up a separator that overflows the parent: the
    second abandon rule of `merge_at` (`pmap.rs:1682-1794`). -/
def overflowsParent {τ : Type} (cap : Cap) (keys : List Bytes) (j : Nat) : Grown τ → Bool
  | .whole _ => false
  | .split _ sep _ => parentWith cap keys j sep.length > cap.c

/-- The node `merge_at` builds from two adjacent children (`pmap.rs:1721-1775`): the leaf merge
    concatenates the records, the interior merge pulls the separator down. `none` when an interior
    merge has no valid split point. -/
def mergedPair (cap : Cap) (shape : LeafShape) : (n : Nat) → Tree ρ n → Bytes → Tree ρ n →
    Option (Grown (Tree ρ n))
  | 0, (l : Leaf ρ), _, (r : Leaf ρ) => some (buildLeaf (l ++ r) cap shape none)
  | _ + 1, (l : Inner (Tree ρ _)), sep, (r : Inner (Tree ρ _)) =>
    buildInterior ⟨l.keys ++ sep :: r.keys, l.children ++ r.children⟩ cap none

/-- `merge_at` (`pmap.rs:1682-1794`): merge children `j` and `j + 1`, abandoning the merge by the two
    abandon rules. -/
def mergeAt (cap : Cap) (shape : LeafShape) (n : Nat) (t : Inner (Tree ρ n)) (j : Nat) :
    Option (Inner (Tree ρ n)) := do
  let l ← t.children[j]?
  let r ← t.children[j + 1]?
  let sep ← t.keys[j]?
  match mergedPair cap shape n l sep r with
  | none => some t
  | some g => some (if overflowsParent cap t.keys j g then t else replacePair t j g)

/-- `rebalance_child` (`pmap.rs:1598-1620`). -/
def rebalanceChild (cap : Cap) (shape : LeafShape) (n : Nat) (t : Inner (Tree ρ n)) (i : Nat) :
    Option (Inner (Tree ρ n)) := do
  let c ← t.children[i]?
  if !underfull cap shape n c then some t
  else if t.children.length < 2 then some t
  else mergeAt cap shape n t (if i + 1 < t.children.length then i else i - 1)

/-- `node_remove` (`pmap.rs:1523-1592`): the removed row and the subtree it leaves. -/
def removeTree (cap : Cap) (shape : LeafShape) : (n : Nat) → Tree ρ n → Bytes →
    Option (Option ρ × Tree ρ n)
  | 0, (es : Leaf ρ), key =>
    match searchKeys (es.map Prod.fst) key with
    | .error _ => some (none, es)
    | .ok i => some ((es[i]?).map (·.2.row), es.eraseIdx i)
  | n + 1, (t : Inner (Tree ρ n)), key => do
    let i := childSlot t.keys key
    let c ← t.children[i]?
    match ← removeTree cap shape n c key with
    | (none, _) => some (none, t)
    | (some row, c') =>
      let t' ← rebalanceChild cap shape n ⟨t.keys, t.children.set i c'⟩ i
      some (some row, t')

/-- `PMap::get` (`pmap.rs:854-882`): the root to leaf descent. -/
def lookup : (n : Nat) → Tree ρ n → Bytes → Option ρ
  | 0, (es : Leaf ρ), key =>
    match searchKeys (es.map Prod.fst) key with
    | .error _ => none
    | .ok i => (es[i]?).map (·.2.row)
  | n + 1, (t : Inner (Tree ρ n)), key =>
    match t.children[childSlot t.keys key]? with
    | none => none
    | some c => lookup n c key

/-- `collect` (`pmap.rs:1799-1812`): the records in key order. -/
def records : (n : Nat) → Tree ρ n → List (Bytes × Rec ρ)
  | 0, (es : Leaf ρ) => es
  | n + 1, (t : Inner (Tree ρ n)) => t.children.flatMap (records n)

/-- A map: its tree, if it has one, and its row count. -/
structure TreeMap (ρ : Type) where
  root : Option ((n : Nat) × Tree ρ n)
  count : Int

/-- `PMap::new` (`pmap.rs:816-821`). -/
def TreeMap.new : TreeMap ρ := ⟨none, 0⟩

/-- `PMap::is_empty` (`pmap.rs:828-830`). -/
def TreeMap.isEmpty (m : TreeMap ρ) : Bool := m.root.isNone

/-- The root an insert leaves (`pmap.rs:892-901`): a split root grows the tree by a level. -/
def growRoot {n : Nat} : Grown (Tree ρ n) → (n : Nat) × Tree ρ n
  | .whole t => ⟨n, t⟩
  | .split left sep right => ⟨n + 1, (⟨[sep], [left, right]⟩ : Inner (Tree ρ n))⟩

/-- `PMap::insert` (`pmap.rs:886-918`). -/
def TreeMap.insert (cap : Cap) (shape : LeafShape) (m : TreeMap ρ) (key : Bytes) (rec : Rec ρ) :
    Option (Option ρ × TreeMap ρ) :=
  match m.root with
  | none => some (none, ⟨some ⟨0, ([(key, rec)] : Leaf ρ)⟩, m.count + 1⟩)
  | some ⟨n, t⟩ => do
    let (g, old) ← insertTree cap shape n t key rec
    some (old, ⟨some (growRoot g), if old.isNone then m.count + 1 else m.count⟩)

/-- The root a remove leaves (`pmap.rs:934-947`): an empty leaf becomes the empty map, an interior
    root without separators hands the root down one level. -/
def collapseRoot : (n : Nat) → Tree ρ n → Option (Option ((n : Nat) × Tree ρ n))
  | 0, (es : Leaf ρ) => some (if es.isEmpty then none else some ⟨0, es⟩)
  | n + 1, (t : Inner (Tree ρ n)) =>
    if t.keys.isEmpty then (t.children[0]?).map (fun c => some ⟨n, c⟩) else some (some ⟨n + 1, t⟩)

/-- `PMap::remove` (`pmap.rs:922-955`). -/
def TreeMap.remove (cap : Cap) (shape : LeafShape) (m : TreeMap ρ) (key : Bytes) :
    Option (Option ρ × TreeMap ρ) :=
  match m.root with
  | none => some (none, m)
  | some ⟨n, t⟩ => do
    match ← removeTree cap shape n t key with
    | (none, _) => some (none, m)
    | (some row, t') =>
      let root ← collapseRoot n t'
      some (some row, ⟨root, m.count - 1⟩)

/-- `PMap::get` (`pmap.rs:854-856`). -/
def TreeMap.get (m : TreeMap ρ) (key : Bytes) : Option ρ :=
  match m.root with
  | none => none
  | some ⟨n, t⟩ => lookup n t key

/-- `PMap::iter` (`pmap.rs:1098-1108`). -/
def TreeMap.iter (m : TreeMap ρ) : List (Bytes × ρ) :=
  match m.root with
  | none => []
  | some ⟨n, t⟩ => (records n t).map (fun e => (e.1, e.2.row))

end Jed.PMap
