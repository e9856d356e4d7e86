import Jed.PMap.InBound
import Jed.PMap.SimMap

/-!
# Bounded traversals agree

Every traversal of the shared nodes comes by what the traversal of the tree it represents comes by, or
ends with an error of the leaf source. The tree's part is `InBound`.
-/

namespace Jed.PMap

open Arc Window

open Gin (KeyBound)

variable {ε ρ σ : Type} {disk : Disk ρ} {src : Option (LeafSource ε ρ)} {h : Heap ε ρ}
  {b : KeyBound}

/-- An error the leaf source gave. -/
def LoadFails (src : Option (LeafSource ε ρ)) (e : Fault ε) : Prop :=
  ∃ load ∈ src, ∃ k p cause, load k p = .error cause ∧ e = .err cause

/-- A read ends with its value, or with an error of the leaf source. -/
def Reads {α : Type} (src : Option (LeafSource ε ρ)) (v : α) (x : Except (Fault ε) α) : Prop :=
  x = .ok v ∨ ∃ e, LoadFails src e ∧ x = .error e

variable {n : Nat} {slot : Child}

/-- A child slot is entered as the tree it represents. -/
theorem enter_spec (hsrc : SourceOk disk src) {t : Tree ρ n} (hr : RepSlot disk (Rep disk h n) slot t) :
    (∃ nd, enter src h slot = .ok nd ∧ NodeRep disk h n nd t) ∨
      ∃ e, LoadFails src e ∧ enter src h slot = .error e := by
  cases slot with
  | resident a =>
    obtain ⟨nd, hn, hnr⟩ := Rep.node hr
    exact .inl ⟨nd, by simp only [enter, hn], hnr⟩
  | onDisk p =>
    cases n with
    | succ n => exact hr.elim
    | zero =>
      obtain ⟨load, rfl⟩ := Option.isSome_iff_exists.mp (hsrc.present p t hr)
      cases hl : load h.cells.length p with
      | error e => exact .inr ⟨.err e, ⟨load, rfl, _, p, e, hl, rfl⟩, by simp only [enter, hl]⟩
      | ok nd => exact .inl ⟨nd, by simp only [enter, hl], hsrc.sound load rfl _ p t nd hr hl⟩

variable {nd : Node ε ρ} {i : Nat}

theorem enterChild_spec (hsrc : SourceOk disk src) {t : Inner (Tree ρ n)}
    (hrel : InnerRel (RepSlot disk (Rep disk h n)) nd.inner t) {c : Tree ρ n}
    (hc : t.children[i]? = some c) :
    (∃ ch, enterChild src h nd i = .ok ch ∧ NodeRep disk h n ch c) ∨
      ∃ e, LoadFails src e ∧ enterChild src h nd i = .error e := by
  obtain ⟨slot, hs, hrs, -, -⟩ := forall₂_cut hrel.children hc
  simp only [enterChild, show nd.children[i]? = some slot from hs]
  exact enter_spec hsrc hrs

theorem Node.IsLeafOf.entryWindow {es : Leaf ρ} (hleaf : nd.IsLeafOf es)
    (b : KeyBound) : entryWindow b nd.keyAt nd.len = leafWindow b es := by
  rw [hleaf.keyAt, hleaf.len]
  rfl

theorem Node.IsLeafOf.readRecord {es : Leaf ρ} (hleaf : nd.IsLeafOf es)
    {e : Bytes × Rec ρ} (he : es[i]? = some e) :
    (readRecord nd i : Except (Fault ε) (Bytes × ρ)) = .ok (e.1, e.2.row) := by
  obtain ⟨hi, rfl⟩ := List.getElem?_eq_some_iff.mp he
  simp [PMap.readRecord, hleaf.rowAt, hleaf.keyAt, readRow, Except.map, hi]

/-- A step of a walk on the tree. -/
def Visit.step (onNode : σ → σ) (onEntry : Bytes × Rec ρ → σ → Except (Fault ε) Bool × σ) :
    Visit ρ → σ → Except (Fault ε) Bool × σ
  | .node, s => (.ok true, onNode s)
  | .record e, s => onEntry e s

section Walk

variable {reverse : Bool} {onNode : σ → σ} {onRec : Node ε ρ → Nat → σ → Except (Fault ε) Bool × σ}
  {onEntry : Bytes × Rec ρ → σ → Except (Fault ε) Bool × σ}
  (hrec : ∀ nd es i e, nd.IsLeafOf es → es[i]? = some e → ∀ s, onRec nd i s = onEntry e s)

include hrec

theorem windowedWalk_spec (hsrc : SourceOk disk src) {n : Nat} :
    ∀ {lo hi : Option Bytes} {t : Tree ρ n} {nd : Node ε ρ} {fuel : Nat}, n < fuel →
      NodeRep disk h n nd t → Ordered n lo hi t → ∀ s,
        Agrees (LoadFails src) (windowedWalk src h b reverse onNode onRec fuel nd s)
          (forWhile (Visit.step onNode onEntry) (trace b reverse n t) s) := by
  induction n with
  | zero =>
    intro lo hi t nd fuel hfuel hr hord s
    obtain ⟨fuel, rfl⟩ : ∃ k, fuel = k + 1 := ⟨fuel - 1, by omega⟩
    have hleaf : nd.IsLeafOf (t : Leaf ρ) := hr
    have hwin := forall₂_inOrder (forall₂_slice (leafWindow_le hord.1 b)) reverse
    simp only [windowedWalk, hleaf.isLeaf, if_true, hleaf.entryWindow, trace, forWhile, Visit.step,
      forWhile_map]
    exact Agrees.forWhile hwin (fun i e he s => .inl (hrec nd t i e hleaf he s)) _
  | succ n ih =>
    intro lo hi t nd fuel hfuel hr hord s
    obtain ⟨fuel, rfl⟩ : ∃ k, fuel = k + 1 := ⟨fuel - 1, by omega⟩
    have hrel : InnerRel (RepSlot disk (Rep disk h n)) nd.inner t := hr
    have hkeys : nd.keys = t.keys := hrel.keys
    have ht : KeyChain.Chain (Ordered n) lo t.keys t.children hi := hord
    have hwin := forall₂_inOrder (forall₂_slice (childSpan_le ht b).2) reverse
    simp only [windowedWalk, hrel.not_isLeaf, Bool.false_eq_true, if_false, hkeys, trace, forWhile,
      Visit.step, forWhile_flatMap]
    refine Agrees.forWhile hwin (fun i c hc s => ?_) _
    cases enterChild_spec hsrc hrel hc with
    | inl hok =>
      obtain ⟨ch, hch, hnr⟩ := hok
      simp only [hch]
      exact ih (by omega) hnr (ht.child hc) s
    | inr hfail =>
      obtain ⟨e, he, hx⟩ := hfail
      exact .inr ⟨e, he, by simp only [hx]⟩

end Walk

/-- The tree of a map is sorted, and routed by its separators. -/
def TreeMap.Routed (tm : TreeMap ρ) : Prop :=
  ∀ n t, tm.root = some ⟨n, t⟩ → Ordered n none none t

/-- What a traversal of a map comes by. -/
def TreeMap.trace (tm : TreeMap ρ) (b : KeyBound) (reverse : Bool) : List (Visit ρ) :=
  match tm.root with
  | none => []
  | some ⟨n, t⟩ => PMap.trace b reverse n t

/-- The number of nodes a traversal of a map enters. -/
def TreeMap.nodesIn (tm : TreeMap ρ) (b : KeyBound) : Nat :=
  match tm.root with
  | none => 0
  | some ⟨n, t⟩ => PMap.nodesIn b n t

/-- The entries of a map within a bound. -/
def TreeMap.entriesIn (tm : TreeMap ρ) (b : KeyBound) : List (Bytes × Rec ρ) :=
  tm.contents.filter fun e => b.contains e.1

theorem TreeMap.records_trace {tm : TreeMap ρ} (hord : tm.Routed) (b : KeyBound) (reverse : Bool) :
    (tm.trace b reverse).filterMap Visit.record? = inOrder reverse (tm.entriesIn b) := by
  unfold TreeMap.trace TreeMap.entriesIn TreeMap.contents
  cases hroot : tm.root with
  | none => cases reverse <;> rfl
  | some r => exact recordsIn_eq b reverse (hord r.1 r.2 hroot)

theorem TreeMap.nodes_trace (tm : TreeMap ρ) (b : KeyBound) (reverse : Bool) :
    (tm.trace b reverse).countP Visit.isNode = tm.nodesIn b := by
  unfold TreeMap.trace TreeMap.nodesIn
  cases tm.root with
  | none => rfl
  | some r => exact countP_trace b reverse

/-- The step of `collectRange`. -/
def collectStep : Visit ρ → Collected ρ → Except (Fault ε) Bool × Collected ρ :=
  Visit.step (fun s => { s with nodes := s.nodes + 1 }) fun e s =>
    (.ok true, { s with out := s.out ++ [(e.1, e.2.row)] })

/-- The pairs and the nodes of the visits. -/
theorem forWhile_collect (visits : List (Visit ρ)) (s : Collected ρ) :
    forWhile (collectStep (ε := ε)) visits s =
      (.ok true, ⟨s.out ++ SortedMap.mapValues Rec.row (visits.filterMap Visit.record?),
        s.nodes + visits.countP Visit.isNode⟩) := by
  induction visits generalizing s with
  | nil => exact congrArg (fun out => (_, (⟨out, s.nodes⟩ : Collected ρ))) (List.append_nil _).symm
  | cons v visits ih =>
    cases v with
    | node =>
      have hcount : (Visit.node :: visits).countP Visit.isNode = visits.countP Visit.isNode + 1 :=
        List.countP_cons_of_pos rfl
      rw [hcount, Nat.add_comm _ 1, ← Nat.add_assoc]
      exact ih _
    | record e =>
      have hcount : (Visit.record e :: visits).countP Visit.isNode = visits.countP Visit.isNode :=
        List.countP_cons_of_neg Bool.false_ne_true
      rw [hcount]
      refine (ih _).trans ?_
      rw [List.append_assoc]
      rfl

/-- A walk that does nothing at nodes is a loop over the records. -/
theorem forWhile_records (f : Bytes × Rec ρ → σ → Except (Fault ε) Bool × σ) (visits : List (Visit ρ))
    (s : σ) : forWhile (Visit.step id f) visits s = forWhile f (visits.filterMap Visit.record?) s := by
  induction visits generalizing s with
  | nil => rfl
  | cons v visits ih =>
    cases v with
    | node => exact ih s
    | record e =>
      simp only [List.filterMap_cons, Visit.record?, forWhile, Visit.step]
      split
      · exact ih _
      · rfl

/-- The step of `foldWalk`. -/
def foldStep (g : Bytes × Rec ρ → σ → Except (Fault ε) Unit × σ) :
    Visit ρ → FoldCounts σ → Except (Fault ε) Bool × FoldCounts σ :=
  Visit.step (fun s => { s with nodes := s.nodes + 1 }) fun e => foldRecord (g e)

/-- The visitor of a fold, as the body of a loop that never stops. -/
def foldBody (g : Bytes × Rec ρ → σ → Except (Fault ε) Unit × σ) (e : Bytes × Rec ρ) (s : σ) :
    Except (Fault ε) Bool × σ :=
  ((g e s).1.map fun _ => true, (g e s).2)

/-- A fold over the visits is one over the records. -/
theorem forWhile_fold (g : Bytes × Rec ρ → σ → Except (Fault ε) Unit × σ) (visits : List (Visit ρ))
    (s : FoldCounts σ) :
    ((forWhile (foldStep g) visits s).1, (forWhile (foldStep g) visits s).2.acc) =
      forWhile (foldBody g) (visits.filterMap Visit.record?) s.acc := by
  induction visits generalizing s with
  | nil => rfl
  | cons v visits ih =>
    cases v with
    | node => exact ih _
    | record e =>
      simp only [List.filterMap_cons, Visit.record?, forWhile, foldStep, Visit.step]
      rcases hg : g e s.acc with ⟨_ | _, acc⟩
      · simp only [foldRecord, foldBody, hg, Except.map]
      · simp only [foldRecord, foldBody, hg, Except.map]
        exact ih _

/-- A fold that is not cut short counts the records and the nodes. -/
theorem forWhile_fold_counts (g : Bytes × Rec ρ → σ → Except (Fault ε) Unit × σ)
    (visits : List (Visit ρ)) (s : FoldCounts σ) {r : Bool}
    (hok : (forWhile (foldStep g) visits s).1 = .ok r) :
    (forWhile (foldStep g) visits s).2.rowCount =
        s.rowCount + (visits.filterMap Visit.record?).length ∧
      (forWhile (foldStep g) visits s).2.nodes = s.nodes + visits.countP Visit.isNode := by
  induction visits generalizing s with
  | nil => exact ⟨rfl, rfl⟩
  | cons v visits ih =>
    cases v with
    | node =>
      have hcount : (Visit.node :: visits).countP Visit.isNode = visits.countP Visit.isNode + 1 :=
        List.countP_cons_of_pos rfl
      rw [hcount, Nat.add_comm _ 1, ← Nat.add_assoc]
      exact ih _ hok
    | record e =>
      have hcount : (Visit.record e :: visits).countP Visit.isNode = visits.countP Visit.isNode :=
        List.countP_cons_of_neg Bool.false_ne_true
      simp only [forWhile, foldStep, Visit.step] at hok ⊢
      rcases hg : g e s.acc with ⟨_ | _, acc⟩
      · simp only [foldRecord, hg] at hok
        cases hok
      · simp only [foldRecord, hg] at hok ⊢
        have hrest := ih { s with acc := acc, rowCount := s.rowCount + 1 } hok
        rw [hcount]
        refine ⟨hrest.1.trans ?_, hrest.2⟩
        rw [Nat.add_assoc, Nat.add_comm 1]
        rfl

section Root

variable {m : PMap} {tm : TreeMap ρ} (hr : RootRep disk h m.root tm.root) (hord : tm.Routed)

include hr hord

theorem walkRoot_spec (hsrc : SourceOk disk src) {reverse : Bool} {onNode : σ → σ}
    {onRec : Node ε ρ → Nat → σ → Except (Fault ε) Bool × σ}
    {onEntry : Bytes × Rec ρ → σ → Except (Fault ε) Bool × σ}
    (hrec : ∀ nd es i e, nd.IsLeafOf es → es[i]? = some e → ∀ s, onRec nd i s = onEntry e s) (s : σ) :
    Agrees (LoadFails src) (walkRoot src h m (windowedWalk src h b reverse onNode onRec) s)
      (forWhile (Visit.step onNode onEntry) (tm.trace b reverse) s) := by
  unfold walkRoot TreeMap.trace
  generalize hroot : m.root = root at hr
  generalize htree : tm.root = tree at hr
  cases hr with
  | empty => exact .inl rfl
  | root hrep =>
    obtain ⟨nd, hn, hnr⟩ := hrep.node
    simp only [enter, hn]
    exact windowedWalk_spec hrec hsrc hrep.height_le hnr (hord _ _ htree) s

theorem rangeEntriesCounted_spec (hsrc : SourceOk disk src) (b : KeyBound) :
    Reads src (SortedMap.mapValues Rec.row (tm.entriesIn b), tm.nodesIn b)
      (rangeEntriesCounted src h m b) := by
  have hwalk : Agrees (LoadFails src) (walkRoot src h m (collectRange src h b) ⟨[], 0⟩)
      (forWhile collectStep (tm.trace b false) ⟨[], 0⟩) :=
    walkRoot_spec hr hord hsrc (fun nd es i e hleaf he s => by
      rw [pushRecord, hleaf.readRecord he]) _
  rw [forWhile_collect, tm.records_trace hord, tm.nodes_trace] at hwalk
  unfold rangeEntriesCounted
  cases hwalk with
  | inl heq =>
    rw [heq, List.nil_append, Nat.zero_add]
    exact .inl rfl
  | inr hfail =>
    obtain ⟨e, he, hx⟩ := hfail
    refine .inr ⟨e, he, ?_⟩
    simp only [hx]
    rfl

theorem rangeEntries_spec (hsrc : SourceOk disk src) (b : KeyBound) :
    Reads src (SortedMap.mapValues Rec.row (tm.entriesIn b)) (rangeEntries src h m b) := by
  unfold rangeEntries
  cases rangeEntriesCounted_spec hr hord hsrc b with
  | inl heq =>
    rw [heq]
    exact .inl rfl
  | inr hfail =>
    obtain ⟨e, he, hx⟩ := hfail
    rw [hx]
    exact .inr ⟨e, he, rfl⟩

/-- A visiting walk is the loop of its visitor over the entries, in order. -/
theorem visiting_spec (hsrc : SourceOk disk src) (reverse : Bool)
    (visit : Bytes → ρ → σ → Except (Fault ε) Bool × σ) (s : σ) :
    Agrees (LoadFails src)
      (walkRoot src h m (windowedWalk src h b reverse id (visitRecord visit)) s)
      (forWhile (fun pair => visit pair.1 pair.2)
        (inOrder reverse (SortedMap.mapValues Rec.row (tm.entriesIn b))) s) := by
  have hwalk : Agrees (LoadFails src)
      (walkRoot src h m (windowedWalk src h b reverse id (visitRecord visit)) s)
      (forWhile (Visit.step id fun e => visit e.1 e.2.row) (tm.trace b reverse) s) :=
    walkRoot_spec hr hord hsrc (fun nd es i e hleaf he s => by
      rw [visitRecord, hleaf.readRecord he]) s
  have hmap : inOrder reverse (SortedMap.mapValues Rec.row (tm.entriesIn b)) =
      (inOrder reverse (tm.entriesIn b)).map fun e => (e.1, e.2.row) := by
    cases reverse with
    | false => rfl
    | true => exact List.map_reverse.symm
  rw [forWhile_records, tm.records_trace hord] at hwalk
  rw [hmap, forWhile_map]
  exact hwalk

theorem foldScan_spec (hsrc : SourceOk disk src) (b : KeyBound)
    {visit : Node ε ρ → Nat → σ → Except (Fault ε) Unit × σ}
    {g : Bytes × Rec ρ → σ → Except (Fault ε) Unit × σ}
    (hvisit : ∀ nd es i e, nd.IsLeafOf es → es[i]? = some e → ∀ s, visit nd i s = g e s) (acc : σ) :
    (∃ e, LoadFails src e ∧ (foldScan src h m b visit acc).1 = .error e) ∨
      ((foldScan src h m b visit acc).1, (foldScan src h m b visit acc).2.acc) =
          ((forWhile (foldBody g) (tm.entriesIn b) acc).1.map fun _ => (),
            (forWhile (foldBody g) (tm.entriesIn b) acc).2) ∧
        ((foldScan src h m b visit acc).1 = .ok () →
          (foldScan src h m b visit acc).2.rowCount = (tm.entriesIn b).length ∧
            (foldScan src h m b visit acc).2.nodes = tm.nodesIn b) := by
  have hwalk : Agrees (LoadFails src) (walkRoot src h m (foldWalk src h b visit) ⟨acc, 0, 0⟩)
      (forWhile (foldStep g) (tm.trace b false) ⟨acc, 0, 0⟩) :=
    walkRoot_spec hr hord hsrc (fun nd es i e hleaf he s => by
      rw [foldRecord, foldRecord, hvisit nd es i e hleaf he]) _
  have hfold := forWhile_fold g (tm.trace b false) ⟨acc, 0, 0⟩
  rw [tm.records_trace hord] at hfold
  unfold foldScan
  cases hwalk with
  | inl heq =>
    rw [heq]
    refine .inr ⟨?_, fun hok => ?_⟩
    · rw [← show _ = forWhile (foldBody g) (tm.entriesIn b) acc from hfold]
    · cases hres : (forWhile (foldStep g) (tm.trace b false) ⟨acc, 0, 0⟩).1 with
      | error e =>
        dsimp only at hok
        rw [hres] at hok
        cases hok
      | ok r =>
        have hcounts := forWhile_fold_counts g (tm.trace b false) ⟨acc, 0, 0⟩ hres
        rw [tm.records_trace hord, tm.nodes_trace, Nat.zero_add, Nat.zero_add] at hcounts
        exact hcounts
  | inr hfail =>
    obtain ⟨e, he, hx⟩ := hfail
    refine .inl ⟨e, he, ?_⟩
    simp only [hx]
    rfl

end Root

theorem countSlot_spec {t : Tree ρ n}
    (hr : RepSlot disk (Rep disk h n) slot t) {count : Node ε ρ → Except (Fault ε) Nat} {k : Nat}
    (hleaf : n = 0 → k = 1) (hcount : ∀ nd, NodeRep disk h n nd t → count nd = .ok k) :
    countSlot h count slot = .ok k := by
  cases slot with
  | resident a =>
    obtain ⟨nd, hn, hnr⟩ := Rep.node hr
    simp only [countSlot, hn]
    exact hcount nd hnr
  | onDisk p =>
    cases n with
    | succ n => exact hr.elim
    | zero => rw [hleaf rfl]; rfl

theorem overlapCount_spec :
    ∀ {lo hi : Option Bytes} {t : Tree ρ n} {nd : Node ε ρ} {fuel : Nat}, n < fuel →
      NodeRep disk h n nd t → Ordered n lo hi t → overlapCount h b fuel nd = .ok (nodesIn b n t) := by
  induction n with
  | zero =>
    intro lo hi t nd fuel hfuel hr _
    obtain ⟨fuel, rfl⟩ : ∃ k, fuel = k + 1 := ⟨fuel - 1, by omega⟩
    have hleaf : nd.IsLeafOf (t : Leaf ρ) := hr
    simp only [overlapCount, hleaf.isLeaf, if_true, nodesIn]
  | succ n ih =>
    intro lo hi t nd fuel hfuel hr hord
    obtain ⟨fuel, rfl⟩ : ∃ k, fuel = k + 1 := ⟨fuel - 1, by omega⟩
    have hrel : InnerRel (RepSlot disk (Rep disk h n)) nd.inner t := hr
    have hkeys : nd.keys = t.keys := hrel.keys
    have ht : KeyChain.Chain (Ordered n) lo t.keys t.children hi := hord
    have hcounts : (positions (childSpan b t.keys)).mapM (countChild h (overlapCount h b fuel) nd) =
        .ok ((slice (childSpan b t.keys) t.children).map (nodesIn b n)) := by
      refine mapM_of_forall₂ (forall₂_slice (childSpan_le ht b).2) fun i c hc => ?_
      obtain ⟨slot, hs, hrs, -, -⟩ := forall₂_cut hrel.children hc
      simp only [countChild, show nd.children[i]? = some slot from hs]
      refine countSlot_spec hrs (fun h0 => ?_) fun nd' hnr => ih (by omega) hnr (ht.child hc)
      subst h0
      rfl
    simp only [overlapCount, hrel.not_isLeaf, Bool.false_eq_true, if_false, hkeys, hcounts, nodesIn]
    rfl

theorem countNodes_spec : ∀ {t : Tree ρ n} {nd : Node ε ρ} {fuel : Nat}, n < fuel →
    NodeRep disk h n nd t → countNodes h fuel nd = .ok (treeNodes n t) := by
  induction n with
  | zero =>
    intro t nd fuel hfuel hr
    obtain ⟨fuel, rfl⟩ : ∃ k, fuel = k + 1 := ⟨fuel - 1, by omega⟩
    have hleaf : nd.IsLeafOf (t : Leaf ρ) := hr
    simp only [countNodes, hleaf.children, treeNodes]
  | succ n ih =>
    intro t nd fuel hfuel hr
    obtain ⟨fuel, rfl⟩ : ∃ k, fuel = k + 1 := ⟨fuel - 1, by omega⟩
    have hrel : InnerRel (RepSlot disk (Rep disk h n)) nd.inner t := hr
    have hlen : nd.children.length = t.children.length := hrel.children.length_eq
    have hleaves : n = 0 → treeNodes (n + 1) t = 1 + nd.children.length := by
      intro h0
      subst h0
      rw [hlen]
      simp [treeNodes]
    have hcounts : nd.children.mapM (countSlot h (countNodes h fuel)) =
        .ok (t.children.map (treeNodes n)) := by
      refine mapM_of_forall₂ hrel.children fun slot c hrs => ?_
      refine countSlot_spec hrs (fun h0 => ?_) fun nd' hnr => ih (by omega) hnr
      subst h0
      rfl
    obtain ⟨slot, c, hslot, -, hrs⟩ := hrel.slot_zero
    have hslot : nd.children[0]? = some slot := hslot
    cases hch : nd.children with
    | nil => simp [hch] at hslot
    | cons first rest =>
      obtain rfl : first = slot := by simpa [hch] using hslot
      rw [hch] at hleaves hcounts
      cases first with
      | onDisk p =>
        cases n with
        | succ n => exact hrs.elim
        | zero =>
          simp only [countNodes, hch]
          exact congrArg Except.ok (hleaves rfl).symm
      | resident a =>
        obtain ⟨nd', hn, hnr⟩ := Rep.node hrs
        simp only [countNodes, hch, hn]
        cases n with
        | zero =>
          have hleaf : nd'.IsLeafOf _ := hnr
          rw [if_pos hleaf.isLeaf]
          exact congrArg Except.ok (hleaves rfl).symm
        | succ n =>
          have hinner : InnerRel (RepSlot disk (Rep disk h n)) nd'.inner _ := hnr
          rw [hinner.not_isLeaf, if_neg Bool.false_ne_true, hcounts]
          rfl

section Root

variable {m : PMap} {tm : TreeMap ρ} (hr : RootRep disk h m.root tm.root) (hord : tm.Routed)

include hr hord

theorem overlapNodeCount_spec (b : KeyBound) : overlapNodeCount h m b = .ok (tm.nodesIn b) := by
  unfold overlapNodeCount TreeMap.nodesIn
  generalize hroot : m.root = root at hr
  generalize htree : tm.root = tree at hr
  cases hr with
  | empty => rfl
  | root hrep =>
    obtain ⟨nd, hn, hnr⟩ := hrep.node
    simp only [countSlot, hn]
    exact overlapCount_spec hrep.height_le hnr (hord _ _ htree)

/-- Unbounded, a traversal enters every node. -/
theorem nodeCount_spec (hlo : b.lo = none) (hhi : b.hi = none) :
    nodeCount h m = .ok (tm.nodesIn b) := by
  unfold nodeCount TreeMap.nodesIn
  generalize hroot : m.root = root at hr
  generalize htree : tm.root = tree at hr
  cases hr with
  | empty => rfl
  | root hrep =>
    obtain ⟨nd, hn, hnr⟩ := hrep.node
    simp only [countSlot, hn, nodesIn_unbounded hlo hhi (hord _ _ htree)]
    exact countNodes_spec hrep.height_le hnr

end Root

end Jed.PMap
