import Jed.PMap.Snapshots

/-!
# Editing in place and copying the path

A node that is dirty and uniquely owned is edited in place, any other one is copied
(`pmap.rs:1382-1664`). Which of the two happens at which level depends on the reference counts and
page stamps of the heap alone. An edit is the edit of the tree the handle represents either way, so
two handles that represent one tree, however their nodes are owned, cached or left on disk, are left
representing one tree.
-/

namespace Jed.PMap

open Arc

variable {ε ρ : Type} {disk : Disk ρ} {src : Option (LeafSource ε ρ)} {cap : Cap} {shape : LeafShape}
  {h : Heap ε ρ}

/-- A node as the serializer reads it: the records of a leaf, the separators of an interior. -/
inductive NodeDump (ρ : Type) where
  | leaf (keys : List Bytes) (rows : List ρ) (weights : List Nat)
  | interior (seps : List Bytes)
  deriving DecidableEq

def leafDump (es : Leaf ρ) : NodeDump ρ :=
  .leaf (es.map Prod.fst) (es.map (·.2.row)) (es.map (·.2.weight))

/-- The nodes of a tree in preorder. -/
def treeDump : (n : Nat) → Tree ρ n → List (NodeDump ρ)
  | 0, (es : Leaf ρ) => [leafDump es]
  | n + 1, (t : Inner (Tree ρ n)) => .interior t.keys :: (t.children.map (treeDump n)).flatten

def TreeMap.dump (m : TreeMap ρ) : List (NodeDump ρ) :=
  match m.root with
  | none => []
  | some ⟨n, t⟩ => treeDump n t

/-- `walk` of `shape_dump` (`pmap.rs:2173-2190`), a packed leaf decoded and an on-disk one loaded. -/
def dumpNode (src : Option (LeafSource ε ρ)) (h : Heap ε ρ) :
    Nat → Node ε ρ → Except (Fault ε) (List (NodeDump ρ))
  | 0, _ => .error .panic
  | fuel + 1, nd =>
    if nd.isLeaf then
      match nd.decodedParts with
      | .error e => .error (.err e)
      | .ok es => .ok [leafDump es]
    else
      (nd.children.mapM (fun slot => (enter src h slot).bind (dumpNode src h fuel))).map
        (fun dumps => .interior nd.keys :: dumps.flatten)

/-- `shape_dump`. -/
def shapeDump (src : Option (LeafSource ε ρ)) (h : Heap ε ρ) (m : PMap) :
    Except (Fault ε) (List (NodeDump ρ)) :=
  match m.root with
  | none => .ok []
  | some root => (enter src h (.resident root)).bind (dumpNode src h (depthBound h))

theorem dumpNode_spec (hsrc : SourceOk disk src) {n : Nat} :
    ∀ {t : Tree ρ n} {nd : Node ε ρ} {fuel : Nat}, n < fuel → NodeRep disk h n nd t →
      ReadsAs disk (treeDump n t) (dumpNode src h fuel nd) := by
  induction n with
  | zero =>
    intro t nd fuel hfuel hr
    obtain ⟨fuel, rfl⟩ : ∃ k, fuel = k + 1 := ⟨fuel - 1, by omega⟩
    have hleaf : nd.IsLeafOf (t : Leaf ρ) := hr
    simp only [dumpNode, hleaf.isLeaf, if_true, treeDump, hleaf.decodedParts]
    exact rfl
  | succ n ih =>
    intro t nd fuel hfuel hr
    obtain ⟨fuel, rfl⟩ : ∃ k, fuel = k + 1 := ⟨fuel - 1, by omega⟩
    have hrel : InnerRel (RepSlot disk (Rep disk h n)) nd.inner t := hr
    have hkeys : nd.keys = t.keys := hrel.keys
    simp only [dumpNode, hrel.not_isLeaf, Bool.false_eq_true, if_false, treeDump, hkeys]
    exact (ReadsAs.mapM hrel.children (fun slot c hrs =>
      enter_bind_spec hsrc hrs (fun nd' hnr => ih (Nat.lt_of_succ_lt_succ hfuel) hnr))).map
        (fun dumps => NodeDump.interior t.keys :: dumps.flatten)

/-- What a handle holds, dumped, is the dump of the tree it represents. -/
theorem shapeDump_spec (hsrc : SourceOk disk src) {m : PMap} {tm : TreeMap ρ}
    (hr : MapRep disk h m tm) : ReadsAs disk tm.dump (m.shapeDump src h) := by
  obtain ⟨root, count⟩ := m
  obtain ⟨troot, tcount⟩ := tm
  obtain ⟨-, hroot⟩ := hr
  cases hroot with
  | empty => exact rfl
  | root hrep =>
    exact enter_bind_spec hsrc (show RepSlot disk (Rep disk h _) (.resident _) _ from hrep)
      (fun nd hnr => dumpNode_spec hsrc hrep.height_le hnr)

/-- The trees that edits make of the empty one. -/
inductive Reachable (cap : Cap) (shape : LeafShape) : TreeMap ρ → Prop where
  | new : Reachable cap shape TreeMap.new
  | edit {tm tm' : TreeMap ρ} {e : Edit ρ} {old : Option ρ} (hr : Reachable cap shape tm)
      (hfits : e.Fits cap shape) (he : tm.edit cap shape e = some (old, tm')) :
      Reachable cap shape tm'

theorem Reachable.ok (hcap : cap.WellFormed) {tm : TreeMap ρ} (h : Reachable cap shape tm) :
    tm.Ok cap shape := by
  induction h with
  | new => exact TreeMap.new_ok
  | edit hr hfits he ih =>
    obtain ⟨tm', he', hok, -⟩ := TreeMap.edit_spec (hcap.sepFits shape) ih hfits
    obtain rfl : tm' = _ := (Prod.ext_iff.mp (Option.some.inj (he'.symm.trans he))).2
    exact hok

/-- An edit of a handle ends with the edit of the tree it represents, or with an error of the leaf
    source. -/
theorem applyEdit_post (hsrc : SourceOk disk src) {m : PMap} {tm tm' : TreeMap ρ}
    {owned : List Addr} {e : Edit ρ} {old : Option ρ} (hc : Counted Node.kids h (m.refs ++ owned))
    (hr : MapRep disk h m tm) (he : tm.edit cap shape e = some (old, tm')) :
    MapPost disk owned h tm' old (applyEdit src cap shape h m e) := by
  cases e with
  | insert key rec => exact pmapInsert_spec hsrc hc hr he
  | remove key => exact pmapRemove_spec hsrc hc hr he

/-- A handle on a heap: its nodes are counted exactly, next to the references `owned` by others,
    and it represents a tree, parts of it on disk. -/
structure Holding (ε : Type) {ρ : Type} (tm : TreeMap ρ) where
  disk : Disk ρ
  src : Option (LeafSource ε ρ)
  heap : Heap ε ρ
  map : PMap
  owned : List Addr
  source : SourceOk disk src
  counted : Counted Node.kids heap (map.refs ++ owned)
  rep : MapRep disk heap map tm

namespace Holding

variable {tm : TreeMap ρ}

/-- An edit of the handle. -/
def run (s : Holding ε tm) (cap : Cap) (shape : LeafShape) (e : Edit ρ) :
    Except (Fault ε) (Option ρ) × PMap × Heap ε ρ :=
  applyEdit s.src cap shape s.heap s.map e

/-- The edit completed, with what it returned, and left a tree. -/
structure Leaves (s : Holding ε tm) (cap : Cap) (shape : LeafShape) (e : Edit ρ) (old : Option ρ)
    (tm' : TreeMap ρ) : Prop where
  returned : (s.run cap shape e).1 = .ok old
  rep : MapRep s.disk (s.run cap shape e).2.2 (s.run cap shape e).2.1 tm'
  dump : ReadsAs s.disk tm'.dump ((s.run cap shape e).2.1.shapeDump s.src (s.run cap shape e).2.2)

end Holding

/-- Editing in place is copying the path: of all the ways to hold a reachable tree (uniquely owned
    and dirty, shared, published, packed or on disk, level by level), an edit leaves the same
    tree, node by node, unless the leaf source fails it. -/
theorem in_place_matches_path_copy (hcap : cap.WellFormed) {tm : TreeMap ρ}
    (hreach : Reachable cap shape tm) {e : Edit ρ} (hfits : e.Fits cap shape) :
    ∃ old tm', Reachable cap shape tm' ∧ ∀ s : Holding ε tm,
      s.Leaves cap shape e old tm' ∨
        HasPages s.disk ∧ ∃ err, (s.run cap shape e).1 = .error (.err err) := by
  obtain ⟨tm', he, hok, -⟩ := TreeMap.edit_spec (hcap.sepFits shape) (hreach.ok hcap) hfits
  refine ⟨(SortedMap.get e.key tm.contents).map Rec.row, tm', .edit hreach hfits he, fun s => ?_⟩
  have hpost := applyEdit_post s.source s.counted s.rep he
  generalize hrun : applyEdit s.src cap shape s.heap s.map e = r at hpost
  have hrun' : s.run cap shape e = r := hrun
  cases hpost with
  | done he' hc' hr' =>
    refine .inl ⟨?_, ?_, ?_⟩
    · rw [hrun']
    · rw [hrun']
      exact hr'
    · rw [hrun']
      exact shapeDump_spec s.source hr'
  | failed hs he' hc' => exact .inr ⟨hs, by rw [hrun']; exact ⟨_, rfl⟩⟩

/-- Three rows in two leaves, of which the first is too small without a row. -/
def fullPair : TreeMap Nat :=
  ⟨some ⟨1, (⟨[[3]], [([([1], ⟨10, 80⟩), ([2], ⟨20, 80⟩)] : Leaf Nat), ([([3], ⟨30, 80⟩)] : Leaf Nat)]⟩ :
    Inner (Leaf Nat))⟩, 3⟩

def fullPairHeap : Heap Unit Nat :=
  ((((⟨[]⟩ : Heap Unit Nat).alloc (.leaf [([3], ⟨30, 80⟩)])).2.alloc
    (.leaf [([1], ⟨10, 80⟩), ([2], ⟨20, 80⟩)])).2.alloc (.interior ⟨[[3]], [.resident 1, .resident 0]⟩)).2

theorem fullPair_rep : MapRep noDisk fullPairHeap ⟨some 2, some 3⟩ fullPair := by
  have hfirst : Rep noDisk fullPairHeap 0 1 ([([1], ⟨10, 80⟩), ([2], ⟨20, 80⟩)] : Leaf Nat) :=
    Rep.leaf rfl (Node.leaf_isLeafOf _)
  have hsecond : Rep noDisk fullPairHeap 0 0 ([([3], ⟨30, 80⟩)] : Leaf Nat) := Rep.leaf rfl (Node.leaf_isLeafOf _)
  have hslots : List.Forall₂ (RepSlot noDisk (Rep noDisk fullPairHeap 0)) [.resident 1, .resident 0]
      [([([1], ⟨10, 80⟩), ([2], ⟨20, 80⟩)] : Leaf Nat), ([([3], ⟨30, 80⟩)] : Leaf Nat)] :=
    .cons hfirst (.cons hsecond .nil)
  exact ⟨rfl, .root (Rep.inner rfl ⟨rfl, rfl, hslots⟩)⟩

theorem fullPair_counted : Counted Node.kids fullPairHeap ([2] ++ []) := by
  have hempty : Counted Node.kids (⟨[]⟩ : Heap Unit Nat)
      (Node.kids (.leaf [([3], ⟨30, 80⟩)] : Node Unit Nat) ++ []) := fun _ => rfl
  exact hempty.alloc.alloc.alloc

/-- The nodes uniquely owned, and dirty. -/
def uniquePair : Holding Unit fullPair where
  disk := noDisk
  src := none
  heap := fullPairHeap
  map := ⟨some 2, some 3⟩
  owned := []
  source := noDisk_sourceOk none
  counted := fullPair_counted
  rep := fullPair_rep

/-- The tree shared with a snapshot. -/
def pinnedPair : Holding Unit fullPair where
  disk := noDisk
  src := none
  heap := fullPairHeap.cloneAll [2]
  map := ⟨some 2, some 3⟩
  owned := [2]
  source := noDisk_sourceOk none
  counted := (cloneAll_spec fullPair_counted (fun a ha => by
    obtain rfl := List.mem_singleton.mp ha
    exact ⟨_, rfl⟩)).1
  rep := fullPair_rep.extends ((cloneAll_spec fullPair_counted (fun a ha => by
    obtain rfl := List.mem_singleton.mp ha
    exact ⟨_, rfl⟩)).2 [2]) (fun _ ha => ha)

/-- The removal of a row merges the two leaves, in place or on a copy of the path. -/
theorem in_place_matches_path_copy_pinned : ∃ (old : Option Nat) (tm' : TreeMap Nat),
    uniquePair.Leaves (Cap.plain 256) ⟨0, 0⟩ (.remove [1]) old tm' ∧
      pinnedPair.Leaves (Cap.plain 256) ⟨0, 0⟩ (.remove [1]) old tm' := by
  have hone : Reachable (Cap.plain 256) ⟨0, 0⟩ (⟨some ⟨0, ([([1], ⟨10, 80⟩)] : Leaf Nat)⟩, 1⟩ : TreeMap Nat) :=
    .edit (e := .insert [1] ⟨10, 80⟩) .new (by decide) rfl
  have htwo : Reachable (Cap.plain 256) ⟨0, 0⟩
      (⟨some ⟨0, ([([1], ⟨10, 80⟩), ([2], ⟨20, 80⟩)] : Leaf Nat)⟩, 2⟩ : TreeMap Nat) :=
    hone.edit (e := .insert [2] ⟨20, 80⟩) (by decide) (by with_unfolding_all rfl)
  have hreach : Reachable (Cap.plain 256) ⟨0, 0⟩ fullPair :=
    htwo.edit (e := .insert [3] ⟨30, 80⟩) (by decide) (by with_unfolding_all rfl)
  obtain ⟨old, tm', -, hall⟩ := in_place_matches_path_copy (ε := Unit) (.inl rfl) hreach
    (e := .remove [1]) trivial
  refine ⟨old, tm', ?_, ?_⟩
  · rcases hall uniquePair with hl | ⟨hpages, -⟩
    · exact hl
    · exact absurd hpages noDisk_noPages
  · rcases hall pinnedPair with hl | ⟨hpages, -⟩
    · exact hl
    · exact absurd hpages noDisk_noPages

end Jed.PMap
