import Jed.Gin.Runs
import Jed.Lib.Window
import Jed.PMap.Heap

/-!
# Bounded traversals

The reads of `pmap.rs` that visit the entries of a `KeyBound`: the collecting walk, the two visiting
walks, the columnar fold and the pull cursor. All of them window an interior node's children by its
separators and a leaf's records by its keys, and fault a leaf in when they descend into it. The
node counts are taken on the resident nodes alone. The read-ahead hints, which load nothing, are left
out.
-/

namespace Jed.PMap

open Arc Window

open Gin (KeyBound)

variable {ε ρ σ α : Type}

/-- `KeyBound::unbounded` (`pmap.rs:755-757`). -/
def unbounded : KeyBound := ⟨none, false, none, false⟩

/-- `KeyBound::child_window` (`pmap.rs:768-779`), on the separators of the node. -/
def childWindow (b : KeyBound) (keys : List Bytes) : Nat × Nat :=
  let first :=
    match b.lo with
    | none => 0
    | some lo => partitionPoint (fun k => k ≤ lo) keys
  let last :=
    match b.hi with
    | none => keys.length
    | some hi =>
      if b.hiInc then partitionPoint (fun k => k ≤ hi) keys
      else partitionPoint (fun k => k < hi) keys
  (first, max last first)

/-- The children of the window, up to and with its last. -/
def childSpan (b : KeyBound) (keys : List Bytes) : Nat × Nat :=
  ((childWindow b keys).1, (childWindow b keys).2 + 1)

/-- The test of `lower_bound`. -/
def isBefore (key : Bytes) (inclusive : Bool) (k : Bytes) : Bool :=
  if inclusive then k < key else k ≤ key

/-- The search `lower_bound` of `KeyBound::entry_window` between `lo` and `hi`. -/
def lowerBound (keyAt : Nat → Bytes) (key : Bytes) (inclusive : Bool) (lo hi : Nat) : Nat :=
  if lo < hi then
    let mid := (lo + hi) / 2
    if isBefore key inclusive (keyAt mid) then lowerBound keyAt key inclusive (mid + 1) hi
    else lowerBound keyAt key inclusive lo mid
  else lo
termination_by hi - lo

/-- `KeyBound::entry_window` (`pmap.rs:784-812`), on a leaf's keys. -/
def entryWindow (b : KeyBound) (keyAt : Nat → Bytes) (len : Nat) : Nat × Nat :=
  let first :=
    match b.lo with
    | none => 0
    | some lo => lowerBound keyAt lo b.loInc 0 len
  let last :=
    match b.hi with
    | none => len
    | some hi => lowerBound keyAt hi (!b.hiInc) 0 len
  (first, max last first)

/-- Child `i` as a traversal enters it. -/
def enterChild (src : Option (LeafSource ε ρ)) (h : Heap ε ρ) (nd : Node ε ρ) (i : Nat) :
    Except (Fault ε) (Node ε ρ) :=
  match nd.children[i]? with
  | none => .error .panic
  | some slot => enter src h slot

/-- The walk every traversal but the cursor makes, forward or in reverse: `onNode` is done on entry
    to a node, and `onRec` for each record admitted, until one answers to stop. -/
def windowedWalk (src : Option (LeafSource ε ρ)) (h : Heap ε ρ) (b : KeyBound) (reverse : Bool)
    (onNode : σ → σ) (onRec : Node ε ρ → Nat → σ → Except (Fault ε) Bool × σ) :
    Nat → Node ε ρ → σ → Except (Fault ε) Bool × σ
  | 0, _, s => (.error .panic, s)
  | fuel + 1, nd, s =>
    if nd.isLeaf then
      forWhile (onRec nd) (inOrder reverse (positions (entryWindow b nd.keyAt nd.len))) (onNode s)
    else
      forWhile (fun i s =>
        match enterChild src h nd i with
        | .error e => (.error e, s)
        | .ok c => windowedWalk src h b reverse onNode onRec fuel c s)
        (inOrder reverse (positions (childSpan b nd.keys))) (onNode s)

/-- A walk from the root. -/
def walkRoot (src : Option (LeafSource ε ρ)) (h : Heap ε ρ) (m : PMap)
    (walk : Nat → Node ε ρ → σ → Except (Fault ε) Bool × σ) (s : σ) : Except (Fault ε) Bool × σ :=
  match m.root with
  | none => (.ok true, s)
  | some root =>
    match enter src h (.resident root) with
    | .error e => (.error e, s)
    | .ok nd => walk (depthBound h) nd s

/-- The key and the row of record `i`. -/
def readRecord (nd : Node ε ρ) (i : Nat) : Except (Fault ε) (Bytes × ρ) :=
  (readRow (nd.rowAt i)).map fun row => (nd.keyAt i, row)

/-- What `collect_range` has pushed, and the nodes it has counted. -/
structure Collected (ρ : Type) where
  out : List (Bytes × ρ)
  nodes : Nat

/-- Push record `i`. -/
def pushRecord (nd : Node ε ρ) (i : Nat) (s : Collected ρ) : Except (Fault ε) Bool × Collected ρ :=
  match readRecord nd i with
  | .error e => (.error e, s)
  | .ok pair => (.ok true, { s with out := s.out ++ [pair] })

/-- `collect_range` (`pmap.rs:1820-1841`). -/
def collectRange (src : Option (LeafSource ε ρ)) (h : Heap ε ρ) (b : KeyBound) :
    Nat → Node ε ρ → Collected ρ → Except (Fault ε) Bool × Collected ρ :=
  windowedWalk src h b false (fun s => { s with nodes := s.nodes + 1 }) pushRecord

/-- `PMap::range_entries_counted` (`pmap.rs:1127-1138`). -/
def rangeEntriesCounted (src : Option (LeafSource ε ρ)) (h : Heap ε ρ) (m : PMap) (b : KeyBound) :
    Except (Fault ε) (List (Bytes × ρ) × Nat) :=
  let r := walkRoot src h m (collectRange src h b) ⟨[], 0⟩
  r.1.map fun _ => (r.2.out, r.2.nodes)

/-- `PMap::range_entries` (`pmap.rs:1115-1121`). -/
def rangeEntries (src : Option (LeafSource ε ρ)) (h : Heap ε ρ) (m : PMap) (b : KeyBound) :
    Except (Fault ε) (List (Bytes × ρ)) :=
  (rangeEntriesCounted src h m b).map Prod.fst

/-- What the loops of the visiting walks do with record `i`. -/
def visitRecord (visit : Bytes → ρ → σ → Except (Fault ε) Bool × σ) (nd : Node ε ρ) (i : Nat) (s : σ) :
    Except (Fault ε) Bool × σ :=
  match readRecord nd i with
  | .error e => (.error e, s)
  | .ok pair => visit pair.1 pair.2 s

/-- `walk_range_visit` (`pmap.rs:1876-1905`). -/
def walkRangeVisit (src : Option (LeafSource ε ρ)) (h : Heap ε ρ) (b : KeyBound)
    (visit : Bytes → ρ → σ → Except (Fault ε) Bool × σ) :
    Nat → Node ε ρ → σ → Except (Fault ε) Bool × σ :=
  windowedWalk src h b false id (visitRecord visit)

/-- `walk_range_visit_rev` (`pmap.rs:1911-1940`). -/
def walkRangeVisitRev (src : Option (LeafSource ε ρ)) (h : Heap ε ρ) (b : KeyBound)
    (visit : Bytes → ρ → σ → Except (Fault ε) Bool × σ) :
    Nat → Node ε ρ → σ → Except (Fault ε) Bool × σ :=
  windowedWalk src h b true id (visitRecord visit)

/-- `PMap::scan_range` (`pmap.rs:1188-1198`); the state is what the visitor captures. -/
def scanRange (src : Option (LeafSource ε ρ)) (h : Heap ε ρ) (m : PMap) (b : KeyBound)
    (visit : Bytes → ρ → σ → Except (Fault ε) Bool × σ) (s : σ) : Except (Fault ε) Unit × σ :=
  let r := walkRoot src h m (walkRangeVisit src h b visit) s
  (r.1.map fun _ => (), r.2)

/-- `PMap::scan_range_rev` (`pmap.rs:1206-1216`). -/
def scanRangeRev (src : Option (LeafSource ε ρ)) (h : Heap ε ρ) (m : PMap) (b : KeyBound)
    (visit : Bytes → ρ → σ → Except (Fault ε) Bool × σ) (s : σ) : Except (Fault ε) Unit × σ :=
  let r := walkRoot src h m (walkRangeVisitRev src h b visit) s
  (r.1.map fun _ => (), r.2)

/-- What `fold_scan` carries: the state of its visitor, and the records and the nodes counted. -/
structure FoldCounts (σ : Type) where
  acc : σ
  rowCount : Nat
  nodes : Nat

/-- Fold with record `i`, and count it when the visitor did not fail. -/
def foldRecord (visit : σ → Except (Fault ε) Unit × σ) (s : FoldCounts σ) :
    Except (Fault ε) Bool × FoldCounts σ :=
  match visit s.acc with
  | (.error e, acc) => (.error e, { s with acc := acc })
  | (.ok (), acc) => (.ok true, { s with acc := acc, rowCount := s.rowCount + 1 })

/-- `fold_walk` (`pmap.rs:1848-1871`). -/
def foldWalk (src : Option (LeafSource ε ρ)) (h : Heap ε ρ) (b : KeyBound)
    (visit : Node ε ρ → Nat → σ → Except (Fault ε) Unit × σ) :
    Nat → Node ε ρ → FoldCounts σ → Except (Fault ε) Bool × FoldCounts σ :=
  windowedWalk src h b false (fun s => { s with nodes := s.nodes + 1 }) fun nd i =>
    foldRecord (visit nd i)

/-- `PMap::fold_scan` (`pmap.rs:1145-1159`). -/
def foldScan (src : Option (LeafSource ε ρ)) (h : Heap ε ρ) (m : PMap) (b : KeyBound)
    (visit : Node ε ρ → Nat → σ → Except (Fault ε) Unit × σ) (acc : σ) :
    Except (Fault ε) Unit × FoldCounts σ :=
  let r := walkRoot src h m (foldWalk src h b visit) ⟨acc, 0, 0⟩
  (r.1.map fun _ => (), r.2)

/-- A child counted: a leaf on disk is one node, and is not loaded. -/
def countSlot (h : Heap ε ρ) (count : Node ε ρ → Except (Fault ε) Nat) :
    Child → Except (Fault ε) Nat
  | .onDisk _ => .ok 1
  | .resident a =>
    match h.node? a with
    | none => .error .panic
    | some nd => count nd

/-- `countSlot` on child `i`. -/
def countChild (h : Heap ε ρ) (count : Node ε ρ → Except (Fault ε) Nat) (nd : Node ε ρ) (i : Nat) :
    Except (Fault ε) Nat :=
  match nd.children[i]? with
  | none => .error .panic
  | some slot => countSlot h count slot

/-- The recursion of `PMap::overlap_node_count` (`pmap.rs:1166-1179`). -/
def overlapCount (h : Heap ε ρ) (b : KeyBound) : Nat → Node ε ρ → Except (Fault ε) Nat
  | 0, _ => .error .panic
  | fuel + 1, nd =>
    if nd.isLeaf then .ok 1
    else
      ((positions (childSpan b nd.keys)).mapM (countChild h (overlapCount h b fuel) nd)).map
        fun counts => 1 + counts.sum

/-- `PMap::overlap_node_count` (`pmap.rs:1165-1181`). -/
def overlapNodeCount (h : Heap ε ρ) (m : PMap) (b : KeyBound) : Except (Fault ε) Nat :=
  match m.root with
  | none => .ok 0
  | some root => countSlot h (overlapCount h b (depthBound h)) (.resident root)

/-- The recursion of `PMap::node_count` (`pmap.rs:1029-1045`): what the first child is decides. -/
def countNodes (h : Heap ε ρ) : Nat → Node ε ρ → Except (Fault ε) Nat
  | 0, _ => .error .panic
  | fuel + 1, nd =>
    match nd.children with
    | [] => .ok 1
    | .onDisk _ :: _ => .ok (1 + nd.children.length)
    | .resident first :: _ =>
      match h.node? first with
      | none => .error .panic
      | some c =>
        if c.isLeaf then .ok (1 + nd.children.length)
        else (nd.children.mapM (countSlot h (countNodes h fuel))).map fun counts => 1 + counts.sum

/-- `PMap::node_count` (`pmap.rs:1028-1047`). -/
def nodeCount (h : Heap ε ρ) (m : PMap) : Except (Fault ε) Nat :=
  match m.root with
  | none => .ok 0
  | some root => countSlot h (countNodes h (depthBound h)) (.resident root)

/-- `ScanFrame` (`pmap.rs:1247-1254`): a node and the positions still to process. -/
structure ScanFrame (ε ρ : Type) where
  node : Node ε ρ
  isLeaf : Bool
  span : Nat × Nat

/-- `ScanFrame::new` (`pmap.rs:1257-1271`). -/
def ScanFrame.new (nd : Node ε ρ) (b : KeyBound) : ScanFrame ε ρ :=
  ⟨nd, nd.isLeaf, if nd.isLeaf then entryWindow b nd.keyAt nd.len else childSpan b nd.keys⟩

/-- `RangeCursor` (`pmap.rs:1288-1293`); the top of the stack is the head of the list. -/
structure RangeCursor (ε ρ : Type) where
  stack : List (ScanFrame ε ρ)
  bound : KeyBound
  reverse : Bool

/-- `PMap::range_cursor` (`pmap.rs:1227-1238`). -/
def rangeCursor (h : Heap ε ρ) (m : PMap) (b : KeyBound) (reverse : Bool) :
    Except (Fault ε) (RangeCursor ε ρ) :=
  match m.root with
  | none => .ok ⟨[], b, reverse⟩
  | some root =>
    match h.node? root with
    | none => .error .panic
    | some nd => .ok ⟨[.new nd b], b, reverse⟩

/-- `RangeCursor::advance` (`pmap.rs:1327-1364`). The number bounds the turns of the loop. -/
def RangeCursor.advance (src : Option (LeafSource ε ρ)) (h : Heap ε ρ)
    (emit : Node ε ρ → Nat → Except (Fault ε) α) :
    Nat → RangeCursor ε ρ → Except (Fault ε) (Option α) × RangeCursor ε ρ
  | 0, c => (.error .panic, c)
  | turns + 1, c =>
    match c.stack with
    | [] => (.ok none, c)
    | frame :: frames =>
      if frame.span.2 ≤ frame.span.1 then
        RangeCursor.advance src h emit turns { c with stack := frames }
      else
        let taken := takePosition c.reverse frame.span
        let rest := { frame with span := taken.2 } :: frames
        if frame.isLeaf then ((emit frame.node taken.1).map some, { c with stack := rest })
        else
          match enterChild src h frame.node taken.1 with
          | .error e => (.error e, { c with stack := rest })
          | .ok ch =>
            RangeCursor.advance src h emit turns { c with stack := .new ch c.bound :: rest }

/-- `RangeCursor::next` (`pmap.rs:1300-1304`). -/
def RangeCursor.next (src : Option (LeafSource ε ρ)) (h : Heap ε ρ) (turns : Nat)
    (c : RangeCursor ε ρ) : Except (Fault ε) (Option (Bytes × ρ)) × RangeCursor ε ρ :=
  c.advance src h readRecord turns

/-- Calls of `next`, each with the leaf source it is given, up to the first that fails. -/
def RangeCursor.nexts (h : Heap ε ρ) (turns : Nat) :
    List (Option (LeafSource ε ρ)) → RangeCursor ε ρ → Except (Fault ε) (List (Option (Bytes × ρ)))
  | [], _ => .ok []
  | src :: srcs, c =>
    match c.next src h turns with
    | (.error e, _) => .error e
    | (.ok pair, c) => (RangeCursor.nexts h turns srcs c).map (pair :: ·)

end Jed.PMap
