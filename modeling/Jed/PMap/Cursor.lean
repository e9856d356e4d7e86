import Jed.PMap.Traversals

/-!
# The cursor, and all traversals

The pull cursor gives one record a call: its stack represents the records still to come, and the turns
its loop takes are bounded by the nodes still to enter. With it, every bounded traversal of a map gives
the entries of the bound.
-/

namespace Jed.PMap

open Arc Window

open Gin (KeyBound)

variable {ε ρ σ : Type} {disk : Disk ρ} {src : Option (LeafSource ε ρ)} {h : Heap ε ρ}
  {b : KeyBound}

/-- The turns of the cursor's loop a node costs. -/
def turnsIn (b : KeyBound) : (n : Nat) → Tree ρ n → Nat
  | 0, _ => 2
  | n + 1, (t : Inner (Tree ρ n)) =>
    2 + ((slice (childSpan b t.keys) t.children).map (turnsIn b n)).sum

/-- A frame and the records it still has to give, with the turns it takes at most. -/
inductive FrameRep (disk : Disk ρ) (h : Heap ε ρ) (b : KeyBound) (reverse : Bool) :
    ScanFrame ε ρ → List (Bytes × Rec ρ) → Nat → Prop where
  | leaf {nd : Node ε ρ} {es : Leaf ρ} {span : Nat × Nat} (hleaf : nd.IsLeafOf es)
      (hspan : span.2 ≤ es.length) :
      FrameRep disk h b reverse ⟨nd, true, span⟩ (inOrder reverse (slice span es)) 1
  | inner {n : Nat} {nd : Node ε ρ} {t : Inner (Tree ρ n)} {lo hi : Option Bytes} {span : Nat × Nat}
      (hrel : InnerRel (RepSlot disk (Rep disk h n)) nd.inner t)
      (hord : KeyChain.Chain (Ordered n) lo t.keys t.children hi) (hspan : span.2 ≤ t.children.length) :
      FrameRep disk h b reverse ⟨nd, false, span⟩
        ((inOrder reverse (slice span t.children)).flatMap (recordsIn b reverse n))
        (1 + ((inOrder reverse (slice span t.children)).map (turnsIn b n)).sum)

/-- The stack, top first. -/
inductive StackRep (disk : Disk ρ) (h : Heap ε ρ) (b : KeyBound) (reverse : Bool) :
    List (ScanFrame ε ρ) → List (Bytes × Rec ρ) → Nat → Prop where
  | nil : StackRep disk h b reverse [] [] 0
  | cons {frame : ScanFrame ε ρ} {frames : List (ScanFrame ε ρ)} {es es' : List (Bytes × Rec ρ)}
      {turns turns' : Nat} (hframe : FrameRep disk h b reverse frame es turns)
      (hrest : StackRep disk h b reverse frames es' turns') :
      StackRep disk h b reverse (frame :: frames) (es ++ es') (turns + turns')

theorem FrameRep.new {n : Nat} {lo hi : Option Bytes} {t : Tree ρ n} {nd : Node ε ρ}
    (hnr : NodeRep disk h n nd t) (hord : Ordered n lo hi t) (reverse : Bool) :
    ∃ turns, turns + 1 = turnsIn b n t ∧
      FrameRep disk h b reverse (.new nd b) (recordsIn b reverse n t) turns := by
  cases n with
  | zero =>
    have hleaf : nd.IsLeafOf (t : Leaf ρ) := hnr
    have hnew : ScanFrame.new nd b = ⟨nd, true, leafWindow b t⟩ := by
      simp only [ScanFrame.new, hleaf.isLeaf, if_true, hleaf.entryWindow]
    refine ⟨1, rfl, ?_⟩
    rw [hnew]
    exact recordsIn_zero b reverse t ▸ .leaf hleaf (leafWindow_le hord.1 b)
  | succ n =>
    have hrel : InnerRel (RepSlot disk (Rep disk h n)) nd.inner t := hnr
    have ht : KeyChain.Chain (Ordered n) lo t.keys t.children hi := hord
    have hkeys : nd.keys = t.keys := hrel.keys
    have hnew : ScanFrame.new nd b = ⟨nd, false, childSpan b t.keys⟩ := by
      simp only [ScanFrame.new, hrel.not_isLeaf, Bool.false_eq_true, if_false, hkeys]
    refine ⟨1 + ((slice (childSpan b t.keys) t.children).map (turnsIn b n)).sum, ?_, ?_⟩
    · simp only [turnsIn]
      omega
    · rw [hnew, ← sum_inOrder reverse]
      exact recordsIn_succ b reverse t ▸ .inner hrel ht (childSpan_le ht b).2

theorem FrameRep.pos {reverse : Bool} {frame : ScanFrame ε ρ} {es : List (Bytes × Rec ρ)} {turns : Nat}
    (hf : FrameRep disk h b reverse frame es turns) : 0 < turns := by
  cases hf with
  | leaf => exact Nat.one_pos
  | inner => omega

theorem FrameRep.done {reverse : Bool} {frame : ScanFrame ε ρ} {es : List (Bytes × Rec ρ)}
    {turns : Nat} (hf : FrameRep disk h b reverse frame es turns)
    (hspan : frame.span.2 ≤ frame.span.1) : es = [] := by
  have hnil : ∀ {α : Type}, inOrder reverse ([] : List α) = [] := by
    intro α
    cases reverse <;> rfl
  cases hf with
  | leaf => rw [slice_eq_nil hspan, hnil]
  | inner => rw [slice_eq_nil hspan, hnil, List.flatMap_nil]

/-- The cursor gives the next record of its stack, or nothing when there is none. -/
theorem advance_spec {α : Type} {emit : Node ε ρ → Nat → Except (Fault ε) α} {g : Bytes × Rec ρ → α}
    (hemit : ∀ nd es i e, nd.IsLeafOf es → es[i]? = some e → emit nd i = .ok (g e))
    (hsrc : SourceOk disk src) {turns : Nat} :
    ∀ {c : RangeCursor ε ρ} {es : List (Bytes × Rec ρ)} {work : Nat},
      StackRep disk h c.bound c.reverse c.stack es work → work < turns →
        (∃ e, LoadFails src e ∧ (c.advance src h emit turns).1 = .error e) ∨
        ∃ stack work', c.advance src h emit turns = (.ok (es.head?.map g), { c with stack := stack }) ∧
          StackRep disk h c.bound c.reverse stack es.tail work' ∧ work' ≤ work := by
  induction turns with
  | zero => exact fun _ hlt => absurd hlt (Nat.not_lt_zero _)
  | succ turns ih =>
    intro c es work hstack hlt
    obtain ⟨stack, bound, reverse⟩ := c
    cases hstack with
    | nil => exact .inr ⟨[], 0, rfl, .nil, le_rfl⟩
    | cons hframe hrest =>
      rename_i frame frames es es' w w'
      have hpos := hframe.pos
      by_cases hspan : frame.span.2 ≤ frame.span.1
      · have hstep : RangeCursor.advance src h emit (turns + 1) ⟨frame :: frames, bound, reverse⟩ =
            RangeCursor.advance src h emit turns ⟨frames, bound, reverse⟩ := by
          simp only [RangeCursor.advance, if_pos hspan]
        rw [hstep, hframe.done hspan, List.nil_append]
        cases ih (c := ⟨frames, bound, reverse⟩) hrest (by omega) with
        | inl hfail => exact .inl hfail
        | inr hok =>
          obtain ⟨stack, work', hrun, hstack', hle⟩ := hok
          exact .inr ⟨stack, work', hrun, hstack', by omega⟩
      · cases hframe with
        | leaf hleaf hle =>
          rename_i nd es span
          obtain ⟨e, hget, hcons⟩ := inOrder_slice_cons reverse (Nat.not_le.mp hspan) hle
          have hstep : RangeCursor.advance src h emit (turns + 1)
              ⟨⟨nd, true, span⟩ :: frames, bound, reverse⟩ = (.ok (some (g e)),
                ⟨⟨nd, true, (takePosition reverse span).2⟩ :: frames, bound, reverse⟩) := by
            simp only [RangeCursor.advance, if_neg hspan, if_true, hemit nd es _ e hleaf hget,
              Except.map]
          rw [hstep, hcons]
          refine .inr ⟨_, 1 + w', rfl, ?_, le_rfl⟩
          exact .cons (.leaf hleaf ((takePosition_le reverse span).trans hle)) hrest
        | inner hrel hord hle =>
          rename_i n nd t lo hi span
          obtain ⟨c, hget, hcons⟩ := inOrder_slice_cons reverse (Nat.not_le.mp hspan) hle
          rw [hcons, List.map_cons, List.sum_cons] at hlt
          rw [hcons, List.map_cons, List.sum_cons, List.flatMap_cons, List.append_assoc]
          have hinner : FrameRep disk h bound reverse ⟨nd, false, (takePosition reverse span).2⟩ _ _ :=
            .inner hrel hord ((takePosition_le reverse span).trans hle)
          have hrest' : StackRep disk h bound reverse _ _ _ := .cons hinner hrest
          cases enterChild_spec hsrc hrel hget with
          | inl hok =>
            obtain ⟨ch, hch, hnr⟩ := hok
            obtain ⟨w, hw, hnew⟩ := FrameRep.new (b := bound) hnr (hord.child hget) reverse
            have hstack' := StackRep.cons hnew hrest'
            dsimp only at hlt
            have hstep : RangeCursor.advance src h emit (turns + 1)
                ⟨⟨nd, false, span⟩ :: frames, bound, reverse⟩ = RangeCursor.advance src h emit turns
                  ⟨.new ch bound :: ⟨nd, false, (takePosition reverse span).2⟩ :: frames, bound,
                    reverse⟩ := by
              simp only [RangeCursor.advance, if_neg hspan, Bool.false_eq_true, if_false, hch]
            rw [hstep]
            cases ih (c := ⟨_, bound, reverse⟩) hstack' (by omega) with
            | inl hfail => exact .inl hfail
            | inr hok =>
              obtain ⟨stack, work', hrun, hstack', hle'⟩ := hok
              refine .inr ⟨stack, work', hrun, hstack', ?_⟩
              dsimp only
              omega
          | inr hfail =>
            obtain ⟨e, he, hx⟩ := hfail
            refine .inl ⟨e, he, ?_⟩
            simp only [RangeCursor.advance, if_neg hspan, Bool.false_eq_true, if_false, hx]

/-- Calls of `next` give the records of the stack, one each, and then nothing. -/
theorem nexts_spec {turns : Nat} : ∀ {srcs : List (Option (LeafSource ε ρ))} {c : RangeCursor ε ρ}
    {es : List (Bytes × Rec ρ)} {work : Nat}, (∀ src ∈ srcs, SourceOk disk src) →
      StackRep disk h c.bound c.reverse c.stack es work → work < turns →
        c.nexts h turns srcs =
            .ok ((List.range srcs.length).map fun i => (SortedMap.mapValues Rec.row es)[i]?) ∨
          ∃ src ∈ srcs, ∃ e, LoadFails src e ∧ c.nexts h turns srcs = .error e := by
  intro srcs
  induction srcs with
  | nil => exact fun _ _ _ => .inl rfl
  | cons src srcs ih =>
    intro c es work hsrcs hstack hlt
    have hnext := advance_spec (fun nd es i e hleaf he => hleaf.readRecord he)
      (hsrcs src List.mem_cons_self) hstack hlt
    rw [RangeCursor.nexts, RangeCursor.next]
    cases hnext with
    | inl hfail =>
      obtain ⟨e, he, hx⟩ := hfail
      refine .inr ⟨src, List.mem_cons_self, e, he, ?_⟩
      rcases hrun : c.advance src h readRecord turns with ⟨_ | _, c'⟩
      · rw [hrun] at hx
        cases hx
        rfl
      · rw [hrun] at hx
        cases hx
    | inr hok =>
      obtain ⟨stack, work', hrun, hstack', hle⟩ := hok
      rw [hrun]
      dsimp only
      cases ih (c := { c with stack := stack }) (fun s hs => hsrcs s (List.mem_cons_of_mem _ hs))
        hstack' (by omega) with
      | inl heq =>
        rw [heq]
        refine .inl (congrArg Except.ok ?_)
        rw [List.length_cons, List.range_succ_eq_map, List.map_cons, List.map_map]
        cases es with
        | nil => rfl
        | cons e es => rfl
      | inr hfail =>
        obtain ⟨s, hs, e, he, hx⟩ := hfail
        rw [hx]
        exact .inr ⟨s, List.mem_cons_of_mem _ hs, e, he, rfl⟩


theorem rangeCursor_spec {m : PMap} {tm : TreeMap ρ} (hr : RootRep disk h m.root tm.root)
    (hord : tm.Routed) (b : KeyBound) (reverse : Bool) :
    ∃ stack work, rangeCursor h m b reverse = .ok ⟨stack, b, reverse⟩ ∧
      StackRep disk h b reverse stack (inOrder reverse (tm.entriesIn b)) work := by
  rw [← tm.records_trace hord]
  unfold rangeCursor TreeMap.trace
  generalize hroot : m.root = root at hr
  generalize htree : tm.root = tree at hr
  cases hr with
  | empty => exact ⟨[], 0, rfl, .nil⟩
  | root hrep =>
    rename_i n a t
    obtain ⟨nd, hn, hnr⟩ := hrep.node
    obtain ⟨work, -, hframe⟩ := FrameRep.new (b := b) hnr (hord _ _ htree) reverse
    have hstack := StackRep.cons hframe .nil
    rw [List.append_nil] at hstack
    exact ⟨_, _, by simp only [hn], hstack⟩

/-- A visitor run over a list. -/
def visitAll {α : Type} (body : α → σ → Except (Fault ε) Bool × σ) (l : List α) (s : σ) :
    Except (Fault ε) Unit × σ :=
  ((forWhile body l s).1.map fun _ => (), (forWhile body l s).2)

/-- Every traversal of a bound gives the entries, in ascending or descending order, unless a leaf fails
    to load; those that count nodes count the nodes of `overlap_node_count`, and of `node_count` when
    the bound has no ends. -/
structure TraversalsAgree (disk : Disk ρ) (h : Heap ε ρ) (m : PMap) (b : KeyBound)
    (entries : List (Bytes × Rec ρ)) (nodes : Nat) : Prop where
  sorted : SortedMap.Sorted entries
  overlap : overlapNodeCount h m b = .ok nodes
  unbounded : b.lo = none → b.hi = none → nodeCount h m = .ok nodes
  collected : ∀ src, SourceOk disk src →
    Reads src (SortedMap.mapValues Rec.row entries) (rangeEntries src h m b)
  counted : ∀ src, SourceOk disk src →
    Reads src (SortedMap.mapValues Rec.row entries, nodes) (rangeEntriesCounted src h m b)
  forward : ∀ {σ : Type} src, SourceOk disk src →
    ∀ (visit : Bytes → ρ → σ → Except (Fault ε) Bool × σ) (s : σ),
      Agrees (LoadFails src) (scanRange src h m b visit s)
        (visitAll (fun pair => visit pair.1 pair.2) (SortedMap.mapValues Rec.row entries) s)
  backward : ∀ {σ : Type} src, SourceOk disk src →
    ∀ (visit : Bytes → ρ → σ → Except (Fault ε) Bool × σ) (s : σ),
      Agrees (LoadFails src) (scanRangeRev src h m b visit s)
        (visitAll (fun pair => visit pair.1 pair.2) (SortedMap.mapValues Rec.row entries).reverse s)
  /-- The visitor of a fold sees the node, and reads its record there. -/
  folded : ∀ {σ : Type} src, SourceOk disk src →
    ∀ (visit : Node ε ρ → Nat → σ → Except (Fault ε) Unit × σ)
      (g : Bytes × Rec ρ → σ → Except (Fault ε) Unit × σ),
      (∀ nd es i e, nd.IsLeafOf es → es[i]? = some e → ∀ s, visit nd i s = g e s) → ∀ acc,
        (∃ e, LoadFails src e ∧ (foldScan src h m b visit acc).1 = .error e) ∨
          ((foldScan src h m b visit acc).1, (foldScan src h m b visit acc).2.acc) =
              visitAll (foldBody g) entries acc ∧
            ((foldScan src h m b visit acc).1 = .ok () →
              (foldScan src h m b visit acc).2.rowCount = entries.length ∧
                (foldScan src h m b visit acc).2.nodes = nodes)
  /-- Each call may be given a source of its own. -/
  pulled : ∀ reverse, ∃ c, rangeCursor h m b reverse = .ok c ∧ ∃ work, ∀ turns, work < turns →
    ∀ srcs : List (Option (LeafSource ε ρ)), (∀ src ∈ srcs, SourceOk disk src) →
      c.nexts h turns srcs = .ok ((List.range srcs.length).map fun i =>
          (inOrder reverse (SortedMap.mapValues Rec.row entries))[i]?) ∨
        ∃ src ∈ srcs, ∃ e, LoadFails src e ∧ c.nexts h turns srcs = .error e

theorem agrees_toUnit {fails : Fault ε → Prop} {x y : Except (Fault ε) Bool × σ}
    (hxy : Agrees fails x y) :
    Agrees fails ((x.1.map fun _ => (), x.2) : Except (Fault ε) Unit × σ)
      (y.1.map fun _ => (), y.2) := by
  cases hxy with
  | inl heq => exact .inl (by rw [heq])
  | inr hfail =>
    obtain ⟨e, he, hx⟩ := hfail
    exact .inr ⟨e, he, by rw [hx]; rfl⟩

/-- All bounded traversals of an ordered tree agree on the entries within the bound, and on the nodes
    they enter. -/
theorem traversals_agree {m : PMap} {tm : TreeMap ρ} (hr : RootRep disk h m.root tm.root)
    (hord : tm.Routed) (b : KeyBound) :
    TraversalsAgree disk h m b (tm.entriesIn b) (tm.nodesIn b) where
  sorted := by
    refine SortedMap.Sorted.of_sublist ?_ List.filter_sublist
    unfold TreeMap.contents
    cases hroot : tm.root with
    | none => exact .nil
    | some r => exact (hord r.1 r.2 hroot).records_sorted
  overlap := overlapNodeCount_spec hr hord b
  unbounded := nodeCount_spec hr hord
  collected _ hsrc := rangeEntries_spec hr hord hsrc b
  counted _ hsrc := rangeEntriesCounted_spec hr hord hsrc b
  forward _ hsrc visit s := agrees_toUnit (visiting_spec hr hord hsrc false visit s)
  backward _ hsrc visit s := agrees_toUnit (visiting_spec hr hord hsrc true visit s)
  folded _ hsrc _ _ hvisit acc := foldScan_spec hr hord hsrc b hvisit acc
  pulled reverse := by
    obtain ⟨stack, work, hc, hstack⟩ := rangeCursor_spec hr hord b reverse
    have hmap : inOrder reverse (SortedMap.mapValues Rec.row (tm.entriesIn b)) =
        SortedMap.mapValues Rec.row (inOrder reverse (tm.entriesIn b)) := by
      cases reverse with
      | false => rfl
      | true => exact List.map_reverse.symm
    rw [hmap]
    exact ⟨_, hc, work, fun turns hlt srcs hsrcs => nexts_spec (c := ⟨stack, b, reverse⟩) hsrcs hstack hlt⟩

/-! A tree of two leaves, the second on disk, under a separator that is no key. -/

def twoLeaves : TreeMap Nat :=
  ⟨some ⟨1, (⟨[[3]], [([([1], ⟨10, 80⟩)] : Leaf Nat), ([([4], ⟨20, 80⟩)] : Leaf Nat)]⟩ :
    Inner (Leaf Nat))⟩, 2⟩

def twoLeavesDisk : Disk Nat := fun p => if p.page = 5 then some [([4], ⟨20, 80⟩)] else none

def twoLeavesSource : LeafSource Unit Nat := fun _ _ => .ok (.leaf [([4], ⟨20, 80⟩)])

def twoLeavesHeap : Heap Unit Nat :=
  (((⟨[]⟩ : Heap Unit Nat).alloc (.leaf [([1], ⟨10, 80⟩)])).2.alloc
    (.interior ⟨[[3]], [.resident 0, .onDisk ⟨5, []⟩]⟩)).2

theorem twoLeaves_rep : RootRep twoLeavesDisk twoLeavesHeap (some 1) twoLeaves.root := by
  have hleaf : Rep twoLeavesDisk twoLeavesHeap 0 0 ([([1], ⟨10, 80⟩)] : Leaf Nat) :=
    Rep.leaf rfl (Node.leaf_isLeafOf _)
  have hslots : List.Forall₂ (RepSlot twoLeavesDisk (Rep twoLeavesDisk twoLeavesHeap 0))
      [.resident 0, .onDisk ⟨5, []⟩]
      [([([1], ⟨10, 80⟩)] : Leaf Nat), ([([4], ⟨20, 80⟩)] : Leaf Nat)] :=
    .cons hleaf (.cons rfl .nil)
  exact .root (Rep.inner rfl ⟨rfl, rfl, hslots⟩)

theorem twoLeaves_routed : twoLeaves.Routed := by
  intro n t ht
  cases ht
  have hfirst : Ordered 0 none (some [3]) ([([1], ⟨10, 80⟩)] : Leaf Nat) := by
    refine ⟨List.pairwise_singleton _ _, fun e he => ?_⟩
    rw [List.mem_singleton.mp he]
    exact ⟨fun _ ha => (by cases ha), fun c hc => (by cases hc; decide)⟩
  have hsecond : Ordered 0 (some [3]) none ([([4], ⟨20, 80⟩)] : Leaf Nat) := by
    refine ⟨List.pairwise_singleton _ _, fun e he => ?_⟩
    rw [List.mem_singleton.mp he]
    exact ⟨fun c hc => (by cases hc; decide), fun _ ha => (by cases ha)⟩
  exact ⟨KeyChain.below_none_left _, hfirst, KeyChain.below_none_right _, hsecond⟩

/-- From the separator on, the first leaf is not entered. -/
theorem traversals_agree_twoLeaves :
    TraversalsAgree twoLeavesDisk twoLeavesHeap ⟨some 1, some 2⟩ ⟨some [3], true, none, false⟩
      [([4], ⟨20, 80⟩)] 2 := by
  have hentries : twoLeaves.entriesIn ⟨some [3], true, none, false⟩ = [([4], ⟨20, 80⟩)] := by decide
  have hnodes : twoLeaves.nodesIn ⟨some [3], true, none, false⟩ = 2 := by decide
  rw [← hentries, ← hnodes]
  exact traversals_agree twoLeaves_rep twoLeaves_routed ⟨some [3], true, none, false⟩

end Jed.PMap
