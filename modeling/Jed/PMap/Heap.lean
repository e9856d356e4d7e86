import Jed.Lib.Arc
import Jed.PMap.Tree

/-!
# The B+tree on shared nodes

`pmap.rs` as it runs: nodes behind `Arc`, edited in place when they are dirty and have no other
reference, path-copied otherwise, with leaves faulted in through a `LeafSource`. Every function
threads the heap explicitly and hands it back next to its result, so an error leaves exactly the
edits made before it. A `&mut` borrow of a node is a `checkOut` of its cell, ended by a `checkIn`;
a temporary `Arc` the source drops at the end of a scope is dropped where the scope ends.
-/

namespace Jed.PMap

open Arc

variable {ε ρ : Type}

/-- A page and the tag its parent binds (`PageRef`). -/
structure PageRef where
  page : Nat
  tag : Bytes
  deriving DecidableEq, Repr

/-- `PageRef::NONE`: page 0 marks a dirty node. -/
def PageRef.NONE : PageRef := ⟨0, List.replicate TAG_LEN 0⟩

/-- `Child`: a resident node, or the page of a clean leaf. -/
inductive Child where
  | resident (node : Addr)
  | onDisk (page : PageRef)
  deriving DecidableEq, Repr

/-- The reference a child slot holds. -/
def Child.addr? : Child → Option Addr
  | .resident a => some a
  | .onDisk _ => none

/-- A record of a packed leaf: its row is decoded from the page block on demand and may be
    corrupt. -/
structure PackedRec (ε ρ : Type) where
  key : Bytes
  row : Except ε ρ
  weight : Nat

/-- `Node` (`pmap.rs:169-203`). `recs` holds `vals` and `weights` side by side. -/
structure Node (ε ρ : Type) where
  keys : List Bytes
  recs : List (Rec ρ)
  children : List Child
  packed : Option (List (PackedRec ε ρ))
  page : PageRef

namespace Node

/-- The references a node holds. -/
def kids (nd : Node ε ρ) : List Addr := nd.children.filterMap Child.addr?

/-- `Node::new_leaf` (`pmap.rs:208-218`), from the records. -/
def leaf (es : Leaf ρ) : Node ε ρ := ⟨es.map Prod.fst, es.map Prod.snd, [], none, .NONE⟩

/-- `Node::interior` (`pmap.rs:227-238`). -/
def interior (t : Inner Child) : Node ε ρ := ⟨t.keys, [], t.children, none, .NONE⟩

/-- `Node::is_leaf` (`pmap.rs:321-323`). -/
def isLeaf (nd : Node ε ρ) : Bool := nd.children.isEmpty

/-- `Node::len` (`pmap.rs:327-331`). -/
def len (nd : Node ε ρ) : Nat :=
  match nd.packed with
  | none => nd.keys.length
  | some p => p.length

/-- `Node::key_at` (`pmap.rs:334-339`), empty outside the node. -/
def keyAt (nd : Node ε ρ) (i : Nat) : Bytes :=
  match nd.packed with
  | none => nd.keys.getD i []
  | some p => ((p[i]?).map PackedRec.key).getD []

/-- `Node::weight_at` for every record (`pmap.rs:355-360`). -/
def weights (nd : Node ε ρ) : List Nat :=
  match nd.packed with
  | none => nd.recs.map Rec.weight
  | some p => p.map PackedRec.weight

/-- `Node::payload` (`pmap.rs:357-363`). -/
def payload (nd : Node ε ρ) (cap : Cap) (shape : LeafShape) : Nat :=
  if nd.isLeaf then leafPayload nd.weights shape else interiorPayload cap nd.keys

/-- `Node::search` (`pmap.rs:367-379`). -/
def search (nd : Node ε ρ) (key : Bytes) : Except Nat Nat := PMap.search nd.keyAt key 0 nd.len

/-- `Node::row_at` (`pmap.rs:393-398`); `none` outside the node. -/
def rowAt (nd : Node ε ρ) (i : Nat) : Option (Except ε ρ) :=
  match nd.packed with
  | none => (nd.recs[i]?).map (fun r => .ok r.row)
  | some p => (p[i]?).map PackedRec.row

/-- One record of `decoded_parts`. -/
def decodeRec (r : PackedRec ε ρ) : Except ε (Bytes × Rec ρ) :=
  r.row.map (fun row => (r.key, ⟨row, r.weight⟩))

/-- `Node::decoded_parts` (`pmap.rs:505-519`). -/
def decodedParts (nd : Node ε ρ) : Except ε (Leaf ρ) :=
  match nd.packed with
  | none => .ok (nd.keys.zip nd.recs)
  | some p => p.mapM decodeRec

/-- The separators and children of an interior node. -/
def inner (nd : Node ε ρ) : Inner Child := ⟨nd.keys, nd.children⟩

/-- A node with its separators and children replaced. -/
def withInner (nd : Node ε ρ) (t : Inner Child) : Node ε ρ :=
  { nd with keys := t.keys, children := t.children }

/-- What `mem::take` leaves of a node. -/
def emptied (nd : Node ε ρ) : Node ε ρ := { nd with keys := [], recs := [], children := [] }

end Node

/-- The nodes of every map that shares them. -/
abbrev Heap (ε ρ : Type) := Store (Node ε ρ)

/-- How a call ends without a value: an error it returns, or a panic. -/
inductive Fault (ε : Type) where
  | err (e : ε)
  | panic
  deriving DecidableEq, Repr

/-- `LeafSource::load_leaf`: it may answer differently from one load to the next, so it is given how
    many cells have been allocated so far. -/
abbrev LeafSource (ε ρ : Type) := Nat → PageRef → Except ε (Node ε ρ)

/-- `Ins` (`pmap.rs:519-530`). -/
inductive Ins where
  | kept
  | whole (node : Addr)
  | split (left : Addr) (sep : Bytes) (right : Addr)
  deriving DecidableEq, Repr

/-- What a fresh builder returns, which is never `Kept`. -/
def Ins.built : Grown Addr → Ins
  | .whole n => .whole n
  | .split l sep r => .split l sep r

/-- `Grown` with each of its nodes mapped. -/
def Grown.map {τ σ : Type} (f : τ → σ) : Grown τ → Grown σ
  | .whole t => .whole (f t)
  | .split l sep r => .split (f l) sep (f r)

/-- Move the nodes a builder computed behind fresh `Arc`s. -/
def allocGrown {τ : Type} (mk : τ → Node ε ρ) (h : Heap ε ρ) : Grown τ → Grown Addr × Heap ε ρ
  | .whole t => (.whole h.cells.length, (h.alloc (mk t)).2)
  | .split l sep r =>
    (.split h.cells.length sep (h.cells.length + 1), ((h.alloc (mk l)).2.alloc (mk r)).2)

/-- Drop one reference. -/
def release (h : Heap ε ρ) (a : Addr) : Heap ε ρ := h.drop Node.kids a

/-- Drop what a child slot holds. -/
def releaseSlot (h : Heap ε ρ) (c : Child) : Heap ε ρ := h.dropAll Node.kids c.addr?.toList

/-- `s.load_leaf(page)`, behind a fresh `Arc`; without a source an on-disk child is unreachable. -/
def loadLeaf (src : Option (LeafSource ε ρ)) (h : Heap ε ρ) (p : PageRef) :
    Except (Fault ε) Addr × Heap ε ρ :=
  match src with
  | none => (.error .panic, h)
  | some load =>
    match load h.cells.length p with
    | .error e => (.error (.err e), h)
    | .ok nd => (.ok h.cells.length, (h.alloc nd).2)

/-- `child` (`pmap.rs:147-160`): an owned reference to child `i`. -/
def child (src : Option (LeafSource ε ρ)) (h : Heap ε ρ) : Child → Except (Fault ε) Addr × Heap ε ρ
  | .resident a => (.ok a, h.clone a)
  | .onDisk p => loadLeaf src h p

/-- Replace child `i`. -/
def Inner.setChild {τ : Type} (t : Inner τ) (i : Nat) (c : τ) : Inner τ :=
  ⟨t.keys, t.children.set i c⟩

/-- Replace child `i` by the two halves it split into. -/
def Inner.splitChild {τ : Type} (t : Inner τ) (i : Nat) (l : τ) (sep : Bytes) (r : τ) : Inner τ :=
  ⟨t.keys.insertIdx i sep, (t.children.set i l).insertIdx (i + 1) r⟩

/-- The leaf case of `node_insert` on a dirty leaf without other references (`pmap.rs:1389-1413`). -/
def insertLeafInPlace (cap : Cap) (shape : LeafShape) (h : Heap ε ρ) (a : Addr) (nd : Node ε ρ)
    (key : Bytes) (rec : Rec ρ) : Except (Fault ε) (Ins × Option ρ) × Heap ε ρ :=
  let (es, i, old) := leafInsert (nd.keys.zip nd.recs) key rec
  let h := h.checkOut a
  if leafPayload (es.map (·.2.weight)) shape ≤ cap.c || es.length < 2 then
    (.ok (.kept, old), h.checkIn a { nd with keys := es.map Prod.fst, recs := es.map Prod.snd })
  else
    let (g, h) := allocGrown Node.leaf (h.checkIn a nd.emptied) (buildLeaf es cap shape (some i))
    (.ok (.built g, old), h)

/-- The leaf case of `node_insert` on a shared or published leaf (`pmap.rs:1414-1428`). -/
def insertLeafCopy (cap : Cap) (shape : LeafShape) (h : Heap ε ρ) (nd : Node ε ρ) (key : Bytes)
    (rec : Rec ρ) : Except (Fault ε) (Ins × Option ρ) × Heap ε ρ :=
  match nd.decodedParts with
  | .error e => (.error (.err e), h)
  | .ok es =>
    let (es', i, old) := leafInsert es key rec
    let (g, h) := allocGrown Node.leaf h (buildLeaf es' cap shape (some i))
    (.ok (.built g, old), h)

/-- An insert into a child held by a local variable `c`, which is dropped unless it was edited in
    place. -/
def insertLocal (go : Heap ε ρ → Addr → Except (Fault ε) (Ins × Option ρ) × Heap ε ρ)
    (h : Heap ε ρ) (c : Addr) : Except (Fault ε) (Grown Addr × Option ρ) × Heap ε ρ :=
  match go h c with
  | (.error e, h) => (.error e, release h c)
  | (.ok (.kept, old), h) => (.ok (.whole c, old), h)
  | (.ok (.whole n, old), h) => (.ok (.whole n, old), release h c)
  | (.ok (.split l sep r, old), h) => (.ok (.split l sep r, old), release h c)

/-- The insert into the child a borrowed parent's slot holds (`pmap.rs:1438-1455`). `go` is the
    recursive call. -/
def insertSlot (go : Heap ε ρ → Addr → Except (Fault ε) (Ins × Option ρ) × Heap ε ρ)
    (src : Option (LeafSource ε ρ)) (h : Heap ε ρ) :
    Child → Except (Fault ε) (Ins × Option ρ) × Heap ε ρ
  | .resident c => go h c
  | .onDisk p =>
    match loadLeaf src h p with
    | (.error e, h) => (.error e, h)
    | (.ok c, h) =>
      match insertLocal go h c with
      | (.error e, h) => (.error e, h)
      | (.ok (g, old), h) => (.ok (.built g, old), h)

/-- The interior case of `node_insert` on a borrowed parent (`pmap.rs:1434-1477`): the node as edited
    is handed back next to the result. -/
def insertBorrowed (go : Heap ε ρ → Addr → Except (Fault ε) (Ins × Option ρ) × Heap ε ρ)
    (src : Option (LeafSource ε ρ)) (cap : Cap) (h : Heap ε ρ) (nd : Node ε ρ) (i : Nat)
    (slot : Child) : Except (Fault ε) (Ins × Option ρ) × Node ε ρ × Heap ε ρ :=
  match insertSlot go src h slot with
  | (.error e, h) => (.error e, nd, h)
  | (.ok (.kept, old), h) => (.ok (.kept, old), nd, h)
  | (.ok (.whole n, old), h) =>
    (.ok (.kept, old), nd.withInner (nd.inner.setChild i (.resident n)), releaseSlot h slot)
  | (.ok (.split l sep r, old), h) =>
    let t := nd.inner.splitChild i (.resident l) sep (.resident r)
    let h := releaseSlot h slot
    if interiorPayload cap t.keys ≤ cap.c || t.keys.length < 2 then
      (.ok (.kept, old), nd.withInner t, h)
    else
      match buildInterior t cap (some i) with
      | none => (.error .panic, nd.emptied, h)
      | some g =>
        let (g, h) := allocGrown Node.interior h g
        (.ok (.built g, old), nd.emptied, h)

/-- The interior case of `node_insert` on a shared or published parent (`pmap.rs:1479-1502`). -/
def insertCopied (go : Heap ε ρ → Addr → Except (Fault ε) (Ins × Option ρ) × Heap ε ρ)
    (src : Option (LeafSource ε ρ)) (cap : Cap) (h : Heap ε ρ) (nd : Node ε ρ) (i : Nat)
    (slot : Child) : Except (Fault ε) (Ins × Option ρ) × Heap ε ρ :=
  match child src h slot with
  | (.error e, h) => (.error e, h)
  | (.ok c, h) =>
    match insertLocal go h c with
    | (.error e, h) => (.error e, h)
    | (.ok (.whole n, old), h) =>
      let h := releaseSlot (h.cloneAll nd.kids) slot
      let (g, h) := allocGrown Node.interior h (.whole (nd.inner.setChild i (.resident n)))
      (.ok (.built g, old), h)
    | (.ok (.split l sep r, old), h) =>
      let h := releaseSlot (h.cloneAll nd.kids) slot
      match buildInterior (nd.inner.splitChild i (.resident l) sep (.resident r)) cap (some i) with
      | none => (.error .panic, h)
      | some g =>
        let (g, h) := allocGrown Node.interior h g
        (.ok (.built g, old), h)

/-- `node_insert` (`pmap.rs:1372-1504`). The caller keeps its reference to `a`. The first argument
    bounds the descent: one level a call. -/
def nodeInsert (src : Option (LeafSource ε ρ)) (cap : Cap) (shape : LeafShape) (key : Bytes)
    (rec : Rec ρ) : Nat → Heap ε ρ → Addr → Except (Fault ε) (Ins × Option ρ) × Heap ε ρ
  | 0, h, _ => (.error .panic, h)
  | fuel + 1, h, a =>
    match h.node? a with
    | none => (.error .panic, h)
    | some nd =>
      if nd.isLeaf then
        if nd.page.page == 0 && h.isUnique a then insertLeafInPlace cap shape h a nd key rec
        else insertLeafCopy cap shape h nd key rec
      else
        let i := childSlot nd.keys key
        match nd.children[i]? with
        | none => (.error .panic, h)
        | some slot =>
          if nd.page.page == 0 && h.isUnique a then
            let (r, nd, h) := insertBorrowed (nodeInsert src cap shape key rec fuel) src cap
              (h.checkOut a) nd i slot
            (r, h.checkIn a nd)
          else insertCopied (nodeInsert src cap shape key rec fuel) src cap h nd i slot

/-- Fault a merge operand in, if it is not resident (`pmap.rs:1690-1703`). -/
def faultSlot (src : Option (LeafSource ε ρ)) (h : Heap ε ρ) :
    Child → Except (Fault ε) (Option Addr) × Heap ε ρ
  | .resident _ => (.ok none, h)
  | .onDisk p =>
    match loadLeaf src h p with
    | (.error e, h) => (.error e, h)
    | (.ok a, h) => (.ok (some a), h)

/-- `leaf_parts` (`pmap.rs:1631-1646`) for the operand `nd` at `a`: whether its vectors are taken
    later, and otherwise a copy of its records. -/
def leafParts (h : Heap ε ρ) (slot : Child) (nd : Node ε ρ) : Except ε (Option (Leaf ρ)) :=
  match slot with
  | .resident a =>
    if nd.page.page == 0 && h.isUnique a then .ok none else nd.decodedParts.map some
  | .onDisk _ => nd.decodedParts.map some

/-- `into_parts` (`pmap.rs:1649-1664`). -/
def intoParts (h : Heap ε ρ) (a : Addr) (nd : Node ε ρ) : Option (Leaf ρ) → Leaf ρ × Heap ε ρ
  | some es => (es, h)
  | none => (nd.keys.zip nd.recs, (h.checkOut a).checkIn a nd.emptied)

/-- Whether the leaf pre-check of `merge_at` abandons the merge (`pmap.rs:1723-1754`). -/
def leafMergeAbandoned (cap : Cap) (shape : LeafShape) (keys : List Bytes) (j : Nat)
    (l r : Node ε ρ) : Bool :=
  match leafSplitPoint (l.weights ++ r.weights) cap shape none with
  | none => false
  | some m =>
    parentWith cap keys j
      (if m < l.len then (l.keyAt m).length else (r.keyAt (m - l.len)).length) > cap.c

/-- Put the merged node in the place of children `j` and `j + 1` (`pmap.rs:1777-1792`). -/
def replaceOperands (h : Heap ε ρ) (nd : Node ε ρ) (j : Nat) (lslot rslot : Child)
    (g : Grown Addr) : Except (Fault ε) Unit × Node ε ρ × Heap ε ρ :=
  (.ok (), nd.withInner (replacePair nd.inner j (g.map .resident)),
    releaseSlot (releaseSlot h lslot) rslot)

/-- The leaf merge of `merge_at`, on the operands at `l` and `r` (`pmap.rs:1721-1762`). -/
def mergeLeaves (cap : Cap) (shape : LeafShape) (h : Heap ε ρ) (nd : Node ε ρ) (j : Nat)
    (lslot rslot : Child) (l r : Addr) (lnode rnode : Node ε ρ) :
    Except (Fault ε) Unit × Node ε ρ × Heap ε ρ :=
  if leafMergeAbandoned cap shape nd.keys j lnode rnode then (.ok (), nd, h)
  else
    match leafParts h lslot lnode, leafParts h rslot rnode with
    | .error e, _ => (.error (.err e), nd, h)
    | _, .error e => (.error (.err e), nd, h)
    | .ok lparts, .ok rparts =>
      let (les, h) := intoParts h l lnode lparts
      let (res, h) := intoParts h r rnode rparts
      let (g, h) := allocGrown Node.leaf h (buildLeaf (les ++ res) cap shape none)
      replaceOperands h nd j lslot rslot g

/-- The interior merge of `merge_at` (`pmap.rs:1763-1774`): the operands' lists are copied, and the
    copies dropped when the merge is abandoned. -/
def mergeInteriors (cap : Cap) (h : Heap ε ρ) (nd : Node ε ρ) (j : Nat) (lslot rslot : Child)
    (lnode rnode : Node ε ρ) (sep : Bytes) : Except (Fault ε) Unit × Node ε ρ × Heap ε ρ :=
  let h := h.cloneAll (lnode.kids ++ rnode.kids)
  match buildInterior ⟨lnode.keys ++ sep :: rnode.keys, lnode.children ++ rnode.children⟩ cap none
    with
  | none => (.ok (), nd, h.dropAll Node.kids (lnode.kids ++ rnode.kids))
  | some g =>
    let (built, h) := allocGrown Node.interior h g
    if overflowsParent cap nd.keys j g then (.ok (), nd, h.dropAll Node.kids built.nodes)
    else replaceOperands h nd j lslot rslot built

/-- `merge_at` (`pmap.rs:1682-1794`), on a bare parent: the node as edited is handed back next to the
    result. -/
def Heap.mergeAt (src : Option (LeafSource ε ρ)) (cap : Cap) (shape : LeafShape) (h : Heap ε ρ)
    (nd : Node ε ρ) (j : Nat) : Except (Fault ε) Unit × Node ε ρ × Heap ε ρ :=
  match nd.children[j]?, nd.children[j + 1]?, nd.keys[j]? with
  | some lslot, some rslot, some sep =>
    match faultSlot src h lslot with
    | (.error e, h) => (.error e, nd, h)
    | (.ok lloaded, h) =>
      match faultSlot src h rslot with
      | (.error e, h) => (.error e, nd, h.dropAll Node.kids lloaded.toList)
      | (.ok rloaded, h) =>
        match lslot.addr?.or lloaded, rslot.addr?.or rloaded with
        | some l, some r =>
          match h.node? l, h.node? r with
          | some lnode, some rnode =>
            let (res, nd, h) :=
              if lnode.isLeaf then mergeLeaves cap shape h nd j lslot rslot l r lnode rnode
              else mergeInteriors cap h nd j lslot rslot lnode rnode sep
            (res, nd, h.dropAll Node.kids (lloaded.toList ++ rloaded.toList))
          | _, _ => (.error .panic, nd, h)
        | _, _ => (.error .panic, nd, h)
  | _, _, _ => (.error .panic, nd, h)

/-- `rebalance_child` (`pmap.rs:1598-1620`). -/
def Heap.rebalanceChild (src : Option (LeafSource ε ρ)) (cap : Cap) (shape : LeafShape)
    (h : Heap ε ρ) (nd : Node ε ρ) (i : Nat) : Except (Fault ε) Unit × Node ε ρ × Heap ε ρ :=
  match ((nd.children[i]?).bind Child.addr?).bind h.node? with
  | none => (.error .panic, nd, h)
  | some c =>
    if !(c.payload cap shape < cap.c / 2 : Bool) then (.ok (), nd, h)
    else if nd.children.length < 2 then (.ok (), nd, h)
    else Heap.mergeAt src cap shape h nd (if i + 1 < nd.children.length then i else i - 1)

/-- The removal from the child a borrowed parent's slot holds (`pmap.rs:1546-1566`), and what the slot
    holds afterwards. `go` is the recursive call: it hands back the reference its slot holds. -/
def removeSlot (go : Heap ε ρ → Addr → Except (Fault ε) (Option ρ) × Addr × Heap ε ρ)
    (src : Option (LeafSource ε ρ)) (h : Heap ε ρ) :
    Child → Except (Fault ε) (Option ρ) × Child × Heap ε ρ
  | .resident c =>
    match go h c with
    | (res, c, h) => (res, .resident c, h)
  | .onDisk p =>
    match loadLeaf src h p with
    | (.error e, h) => (.error e, .onDisk p, h)
    | (.ok c, h) =>
      match go h c with
      | (.ok (some row), c, h) => (.ok (some row), .resident c, h)
      | (res, c, h) => (res, .onDisk p, release h c)

/-- The interior case of `node_remove` on a borrowed parent (`pmap.rs:1542-1571`). -/
def removeBorrowed (go : Heap ε ρ → Addr → Except (Fault ε) (Option ρ) × Addr × Heap ε ρ)
    (src : Option (LeafSource ε ρ)) (cap : Cap) (shape : LeafShape) (h : Heap ε ρ) (nd : Node ε ρ)
    (i : Nat) (slot : Child) : Except (Fault ε) (Option ρ) × Node ε ρ × Heap ε ρ :=
  match removeSlot go src h slot with
  | (.error e, slot, h) => (.error e, nd.withInner (nd.inner.setChild i slot), h)
  | (.ok none, slot, h) => (.ok none, nd.withInner (nd.inner.setChild i slot), h)
  | (.ok (some row), slot, h) =>
    match Heap.rebalanceChild src cap shape h (nd.withInner (nd.inner.setChild i slot)) i with
    | (.error e, nd, h) => (.error e, nd, h)
    | (.ok (), nd, h) => (.ok (some row), nd, h)

/-- The interior case of `node_remove` on a shared or published parent at `a`
    (`pmap.rs:1574-1593`). -/
def removeCopied (go : Heap ε ρ → Addr → Except (Fault ε) (Option ρ) × Addr × Heap ε ρ)
    (src : Option (LeafSource ε ρ)) (cap : Cap) (shape : LeafShape) (h : Heap ε ρ) (a : Addr)
    (nd : Node ε ρ) (i : Nat) (slot : Child) : Except (Fault ε) (Option ρ) × Addr × Heap ε ρ :=
  match child src h slot with
  | (.error e, h) => (.error e, a, h)
  | (.ok c, h) =>
    match go h c with
    | (.error e, c, h) => (.error e, a, release h c)
    | (.ok none, c, h) => (.ok none, a, release h c)
    | (.ok (some row), c, h) =>
      let h := releaseSlot (h.cloneAll nd.kids) slot
      match Heap.rebalanceChild src cap shape h (.interior (nd.inner.setChild i (.resident c))) i with
      | (.error e, rebuilt, h) => (.error e, a, h.dropAll Node.kids rebuilt.kids)
      | (.ok (), rebuilt, h) => (.ok (some row), h.cells.length, release (h.alloc rebuilt).2 a)

/-- The leaf case of `node_remove` (`pmap.rs:1530-1548`). -/
def removeLeaf (h : Heap ε ρ) (a : Addr) (nd : Node ε ρ) (key : Bytes) :
    Except (Fault ε) (Option ρ) × Addr × Heap ε ρ :=
  match nd.search key with
  | .error _ => (.ok none, a, h)
  | .ok i =>
    if nd.page.page == 0 && h.isUnique a then
      (.ok ((nd.recs[i]?).map Rec.row), a,
        (h.checkOut a).checkIn a { nd with keys := nd.keys.eraseIdx i, recs := nd.recs.eraseIdx i })
    else
      match nd.decodedParts with
      | .error e => (.error (.err e), a, h)
      | .ok es =>
        (.ok ((es[i]?).map (·.2.row)), h.cells.length,
          release (h.alloc (.leaf (es.eraseIdx i))).2 a)

/-- `node_remove` (`pmap.rs:1523-1592`): the slot that held `a` holds the returned reference
    afterwards. -/
def nodeRemove (src : Option (LeafSource ε ρ)) (cap : Cap) (shape : LeafShape) (key : Bytes) :
    Nat → Heap ε ρ → Addr → Except (Fault ε) (Option ρ) × Addr × Heap ε ρ
  | 0, h, a => (.error .panic, a, h)
  | fuel + 1, h, a =>
    match h.node? a with
    | none => (.error .panic, a, h)
    | some nd =>
      if nd.isLeaf then removeLeaf h a nd key
      else
        let i := childSlot nd.keys key
        match nd.children[i]? with
        | none => (.error .panic, a, h)
        | some slot =>
          if nd.page.page == 0 && h.isUnique a then
            let (res, nd, h) := removeBorrowed (nodeRemove src cap shape key fuel) src cap shape
              (h.checkOut a) nd i slot
            (res, a, h.checkIn a nd)
          else removeCopied (nodeRemove src cap shape key fuel) src cap shape h a nd i slot

end Jed.PMap

namespace Jed

open Arc PMap

variable {ε ρ : Type}

/-- `PMap` (`pmap.rs:57-66`): one handle on the shared nodes. The row count is unknown for an index
    loaded from disk. -/
structure PMap where
  root : Option Addr
  count : Option Int
  deriving DecidableEq, Repr

namespace PMap

/-- `PMap::new` (`pmap.rs:816-821`). -/
def new : PMap := ⟨none, some 0⟩

/-- `PMap::is_empty` (`pmap.rs:828-830`). -/
def isEmpty (m : PMap) : Bool := m.root.isNone

/-- The references a handle holds. -/
def refs (m : PMap) : List Addr := m.root.toList

/-- `PMap::clone`: another handle on the same root. -/
def clone (h : Heap ε ρ) (m : PMap) : PMap × Heap ε ρ := (m, h.cloneAll m.refs)

/-- Dropping a handle. -/
def drop (h : Heap ε ρ) (m : PMap) : Heap ε ρ := h.dropAll Node.kids m.refs

/-- How far a descent can go: a path visits each cell once, and ends in a leaf on disk at most. -/
def depthBound (h : Heap ε ρ) : Nat := h.cells.length + 1

/-- `PMap::insert` (`pmap.rs:886-918`). The row count is taken not to leave `i64`. -/
def insert (src : Option (LeafSource ε ρ)) (cap : Cap) (shape : LeafShape) (h : Heap ε ρ) (m : PMap)
    (key : Bytes) (rec : Rec ρ) : Except (Fault ε) (Option ρ) × PMap × Heap ε ρ :=
  let grow (old : Option ρ) := if old.isNone then m.count.map (· + 1) else m.count
  match m.root with
  | none =>
    (.ok none, ⟨some h.cells.length, grow none⟩, (h.alloc (.leaf [(key, rec)])).2)
  | some root =>
    match nodeInsert src cap shape key rec (depthBound h) h root with
    | (.error e, h) => (.error e, m, h)
    | (.ok (.kept, old), h) => (.ok old, ⟨some root, grow old⟩, h)
    | (.ok (.whole n, old), h) => (.ok old, ⟨some n, grow old⟩, release h root)
    | (.ok (.split l sep r, old), h) =>
      (.ok old, ⟨some h.cells.length, grow old⟩,
        release (h.alloc (.interior ⟨[sep], [.resident l, .resident r]⟩)).2 root)

/-- `PMap::remove` (`pmap.rs:922-955`). -/
def remove (src : Option (LeafSource ε ρ)) (cap : Cap) (shape : LeafShape) (h : Heap ε ρ) (m : PMap)
    (key : Bytes) : Except (Fault ε) (Option ρ) × PMap × Heap ε ρ :=
  match m.root with
  | none => (.ok none, m, h)
  | some root =>
    match nodeRemove src cap shape key (depthBound h) h root with
    | (.error e, root, h) => (.error e, ⟨some root, m.count⟩, h)
    | (.ok none, root, h) => (.ok none, ⟨some root, m.count⟩, h)
    | (.ok (some row), root, h) =>
      let count := m.count.map (· - 1)
      match h.node? root with
      | none => (.error .panic, m, h)
      | some nd =>
        if nd.keys.isEmpty then
          match nd.children[0]? with
          | none => (.ok (some row), ⟨none, count⟩, release h root)
          | some slot =>
            match child src h slot with
            | (.error e, h) => (.error e, ⟨some root, m.count⟩, h)
            | (.ok c, h) => (.ok (some row), ⟨some c, count⟩, release h root)
        else (.ok (some row), ⟨some root, count⟩, h)

/-! ### Reads -/

/-- The node a traversal enters for a child slot. -/
def enter (src : Option (LeafSource ε ρ)) (h : Heap ε ρ) : Child → Except (Fault ε) (Node ε ρ)
  | .resident a =>
    match h.node? a with
    | none => .error .panic
    | some nd => .ok nd
  | .onDisk p =>
    match src with
    | none => .error .panic
    | some load =>
      match load h.cells.length p with
      | .error e => .error (.err e)
      | .ok nd => .ok nd

/-- A row read, out of bounds being a panic. -/
def readRow : Option (Except ε ρ) → Except (Fault ε) ρ
  | none => .error .panic
  | some (.error e) => .error (.err e)
  | some (.ok row) => .ok row

/-- The descent of `PMap::get` (`pmap.rs:861-882`). -/
def nodeGet (src : Option (LeafSource ε ρ)) (h : Heap ε ρ) (key : Bytes) :
    Nat → Node ε ρ → Except (Fault ε) (Option ρ)
  | 0, _ => .error .panic
  | fuel + 1, nd =>
    if nd.isLeaf then
      match nd.search key with
      | .error _ => .ok none
      | .ok i => (readRow (nd.rowAt i)).map some
    else
      match nd.children[childSlot nd.keys key]? with
      | none => .error .panic
      | some slot => (enter src h slot).bind (nodeGet src h key fuel)

/-- `PMap::get` (`pmap.rs:854-856`). -/
def get (src : Option (LeafSource ε ρ)) (h : Heap ε ρ) (m : PMap) (key : Bytes) :
    Except (Fault ε) (Option ρ) :=
  match m.root with
  | none => .ok none
  | some root => (enter src h (.resident root)).bind (nodeGet src h key (depthBound h))

/-- `collect` (`pmap.rs:1799-1812`). -/
def collect (src : Option (LeafSource ε ρ)) (h : Heap ε ρ) :
    Nat → Node ε ρ → Except (Fault ε) (List (Bytes × ρ))
  | 0, _ => .error .panic
  | fuel + 1, nd =>
    if nd.isLeaf then
      (List.range nd.len).mapM (fun i => (readRow (nd.rowAt i)).map (fun row => (nd.keyAt i, row)))
    else
      (nd.children.mapM (fun slot => (enter src h slot).bind (collect src h fuel))).map List.flatten

/-- `PMap::iter` (`pmap.rs:1098-1108`). -/
def iter (src : Option (LeafSource ε ρ)) (h : Heap ε ρ) (m : PMap) :
    Except (Fault ε) (List (Bytes × ρ)) :=
  match m.root with
  | none => .ok []
  | some root => (enter src h (.resident root)).bind (collect src h (depthBound h))

end PMap

end Jed
