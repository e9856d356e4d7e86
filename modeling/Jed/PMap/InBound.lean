import Jed.PMap.Ordered
import Jed.PMap.Scan

/-!
# The entries of a bound

A traversal on the tree of values: the nodes it enters and the records it admits, in order. On an
ordered tree the records are those within the bound, since a child outside the window holds none of
them, whatever stale separators say; and unbounded, every node is entered.
-/

namespace Jed.PMap

open KeyChain Window

open Gin (KeyBound)

variable {ρ σ : Type}

/-- What a traversal comes by. -/
inductive Visit (ρ : Type) where
  | node
  | record (e : Bytes × Rec ρ)

def Visit.record? : Visit ρ → Option (Bytes × Rec ρ)
  | .node => none
  | .record e => some e

def Visit.isNode : Visit ρ → Bool
  | .node => true
  | .record _ => false

/-- The window of a leaf. -/
def leafWindow (b : KeyBound) (es : Leaf ρ) : Nat × Nat :=
  entryWindow b (fun i => (es.map Prod.fst).getD i []) es.length

/-- What a traversal comes by below a node, in order. -/
def trace (b : KeyBound) (reverse : Bool) : (n : Nat) → Tree ρ n → List (Visit ρ)
  | 0, (es : Leaf ρ) => .node :: (inOrder reverse (slice (leafWindow b es) es)).map .record
  | n + 1, (t : Inner (Tree ρ n)) =>
    .node :: (inOrder reverse (slice (childSpan b t.keys) t.children)).flatMap (trace b reverse n)

/-- The records admitted below a node, in order. -/
def recordsIn (b : KeyBound) (reverse : Bool) (n : Nat) (t : Tree ρ n) : List (Bytes × Rec ρ) :=
  (trace b reverse n t).filterMap Visit.record?

/-- The number of nodes a traversal enters. -/
def nodesIn (b : KeyBound) : (n : Nat) → Tree ρ n → Nat
  | 0, _ => 1
  | n + 1, (t : Inner (Tree ρ n)) =>
    1 + ((slice (childSpan b t.keys) t.children).map (nodesIn b n)).sum

/-- The number of nodes. -/
def treeNodes : (n : Nat) → Tree ρ n → Nat
  | 0, _ => 1
  | n + 1, (t : Inner (Tree ρ n)) => 1 + (t.children.map (treeNodes n)).sum

/-- The search ends where its test turns. -/
theorem lowerBound_eq {keyAt : Nat → Bytes} {key : Bytes} {inclusive : Bool} {lo hi m : Nat}
    (hle : lo ≤ m) (hhi : m ≤ hi) (hbefore : ∀ i, i < m → isBefore key inclusive (keyAt i) = true)
    (hafter : ∀ i, m ≤ i → i < hi → isBefore key inclusive (keyAt i) = false) :
    lowerBound keyAt key inclusive lo hi = m := by
  induction lo, hi using lowerBound.induct keyAt key inclusive with
  | case1 lo hi hlt mid hb ih =>
    have hmid : mid < m := by
      by_contra hge
      have hfalse := hafter mid (by omega) (by omega)
      exact absurd (hb.symm.trans hfalse) (by decide)
    rw [lowerBound, if_pos hlt]
    dsimp only
    rw [if_pos hb]
    exact ih (by omega) hhi hafter
  | case2 lo hi hlt mid hb ih =>
    have hmid : m ≤ mid := by
      by_contra hgt
      exact hb (hbefore mid (by omega))
    rw [lowerBound, if_pos hlt]
    dsimp only
    rw [if_neg hb]
    exact ih hle hmid fun i hi' hlt' => hafter i hi' (by omega)
  | case3 lo hi hlt =>
    rw [lowerBound, if_neg hlt]
    omega

variable {k k' : Bytes}

theorem isBefore_of_lt {key : Bytes} {inclusive : Bool} (hlt : k < k')
    (h : isBefore key inclusive k' = true) : isBefore key inclusive k = true := by
  cases inclusive with
  | true =>
    have hk' : k' < key := by simpa [isBefore] using h
    simpa [isBefore] using hlt.trans hk'
  | false =>
    have hk' : k' ≤ key := by simpa [isBefore] using h
    simpa [isBefore] using hlt.le.trans hk'

/-- Whether a key lies below the bound. -/
def below (b : KeyBound) (k : Bytes) : Bool :=
  match b.lo with
  | none => false
  | some lo => isBefore lo b.loInc k

/-- Whether a key does not lie above the bound. -/
def upTo (b : KeyBound) (k : Bytes) : Bool :=
  match b.hi with
  | none => true
  | some hi => isBefore hi (!b.hiInc) k

theorem contains_eq (b : KeyBound) (k : Bytes) : b.contains k = (!below b k && upTo b k) := by
  obtain ⟨lo, loInc, hi, hiInc⟩ := b
  have hlo : (lo.all fun lo => if loInc then lo ≤ k else lo < k) = !below ⟨lo, loInc, hi, hiInc⟩ k := by
    cases lo with
    | none => rfl
    | some lo =>
      refine Bool.eq_iff_iff.mpr ?_
      cases loInc <;> simp [below, isBefore]
  have hhi : (hi.all fun hi => if hiInc then k ≤ hi else k < hi) = upTo ⟨lo, loInc, hi, hiInc⟩ k := by
    cases hi <;> cases hiInc <;> simp [upTo, isBefore]
  rw [KeyBound.contains, hlo, hhi]

variable {b : KeyBound}

theorem below_of_lt (hlt : k < k') (h : below b k' = true) :
    below b k = true := by
  unfold below at *
  split
  · rename_i hlo
    simp [hlo] at h
  · rename_i hlo
    simp only [hlo] at h
    exact isBefore_of_lt hlt h

theorem upTo_of_lt (hlt : k < k') (h : upTo b k' = true) :
    upTo b k = true := by
  unfold upTo at *
  split
  · rfl
  · rename_i hhi
    simp only [hhi] at h
    exact isBefore_of_lt hlt h

section Leaf

variable {es : Leaf ρ} (hs : SortedMap.Sorted es)

include hs

theorem initial_below (b : KeyBound) : Initial (fun e : Bytes × Rec ρ => below b e.1) es :=
  hs.imp fun hlt => below_of_lt hlt

theorem initial_upTo (b : KeyBound) : Initial (fun e : Bytes × Rec ρ => upTo b e.1) es :=
  hs.imp fun hlt => upTo_of_lt hlt

theorem lowerBound_leaf (key : Bytes) (inclusive : Bool) :
    lowerBound (fun i => (es.map Prod.fst).getD i []) key inclusive 0 es.length =
      partitionPoint (fun e => isBefore key inclusive e.1) es := by
  have hinit : Initial (fun e : Bytes × Rec ρ => isBefore key inclusive e.1) es :=
    hs.imp fun hlt => isBefore_of_lt hlt
  have hget : ∀ {i : Nat} (h : i < es.length), (es.map Prod.fst).getD i [] = es[i].1 := by
    intro i h
    simp [h]
  refine lowerBound_eq (Nat.zero_le _) (partitionPoint_le _ _) (fun i hi => ?_) fun i hi hlt => ?_
  · have hlt : i < es.length := hi.trans_le (partitionPoint_le _ _)
    rw [hget hlt]
    exact of_lt_partitionPoint hi (List.getElem?_eq_getElem hlt)
  · rw [hget hlt]
    exact hinit.of_partitionPoint_le hi (List.getElem?_eq_getElem hlt)

theorem leafWindow_eq (b : KeyBound) :
    leafWindow b es = (partitionPoint (fun e => below b e.1) es,
      max (partitionPoint (fun e => upTo b e.1) es) (partitionPoint (fun e => below b e.1) es)) := by
  have hfirst : (leafWindow b es).1 = partitionPoint (fun e => below b e.1) es := by
    unfold leafWindow entryWindow below
    cases b.lo with
    | none => exact (partitionPoint_eq_zero fun _ _ => rfl).symm
    | some lo => exact lowerBound_leaf hs lo b.loInc
  have hlast : (match b.hi with
      | none => es.length
      | some hi => lowerBound (fun i => (es.map Prod.fst).getD i []) hi (!b.hiInc) 0 es.length) =
        partitionPoint (fun e => upTo b e.1) es := by
    unfold upTo
    cases b.hi with
    | none => exact (partitionPoint_eq_length fun _ _ => rfl).symm
    | some hi => exact lowerBound_leaf hs hi (!b.hiInc)
  refine Prod.ext hfirst ?_
  exact congrArg₂ max hlast hfirst

theorem leafWindow_le (b : KeyBound) : (leafWindow b es).2 ≤ es.length := by
  rw [leafWindow_eq hs]
  exact max_le (partitionPoint_le _ _) (partitionPoint_le _ _)

theorem slice_leafWindow (b : KeyBound) :
    slice (leafWindow b es) es = es.filter fun e => b.contains e.1 := by
  rw [leafWindow_eq hs, slice_max, slice_eq_filter (initial_below hs b) (initial_upTo hs b)]
  exact List.filter_congr fun e _ => (contains_eq b e.1).symm

end Leaf

section Inner

variable {n : Nat} {lo hi : Option Bytes} {t : Inner (Tree ρ n)}
  (ht : Chain (Ordered n) lo t.keys t.children hi)

include ht

omit ht in
theorem childWindow_eq (b : KeyBound) (keys : List Bytes) :
    childWindow b keys = ((childWindow b keys).1,
      max (partitionPoint (upTo b) keys) (childWindow b keys).1) := by
  have hlast : (match b.hi with
      | none => keys.length
      | some hi =>
        if b.hiInc then partitionPoint (fun k => decide (k ≤ hi)) keys
        else partitionPoint (fun k => decide (k < hi)) keys) = partitionPoint (upTo b) keys := by
    obtain ⟨lo, loInc, hi, hiInc⟩ := b
    cases hi with
    | none => exact (partitionPoint_eq_length fun _ _ => rfl).symm
    | some hi => cases hiInc <;> rfl
  refine Prod.ext rfl ?_
  exact congrArg₂ max hlast rfl

theorem childSpan_le (b : KeyBound) :
    (childSpan b t.keys).1 ≤ (childSpan b t.keys).2 ∧
      (childSpan b t.keys).2 ≤ t.children.length := by
  have hlen := ht.length
  have hlo : (childWindow b t.keys).1 ≤ t.keys.length := by
    unfold childWindow
    cases b.lo with
    | none => exact Nat.zero_le _
    | some lo => exact partitionPoint_le _ _
  have hhi : (childWindow b t.keys).2 ≤ t.keys.length := by
    rw [childWindow_eq]
    exact max_le (partitionPoint_le _ _) hlo
  have hle : (childWindow b t.keys).1 ≤ (childWindow b t.keys).2 := le_max_right _ _
  simp only [childSpan]
  omega

/-- A child before the window has only keys below the bound. -/
theorem not_contains_before (b : KeyBound) {i : Nat} (hi : i < (childSpan b t.keys).1) {c : Tree ρ n}
    (hc : t.children[i]? = some c) : ∀ e ∈ records n c, b.contains e.1 = false := by
  intro e he
  have hrange := (ht.child hc).records_inRange e he
  have hbelow : below b e.1 = true := by
    unfold below
    simp only [childSpan, childWindow] at hi
    cases hlo : b.lo with
    | none =>
      rw [hlo] at hi
      exact absurd hi (Nat.not_lt_zero i)
    | some lo =>
      rw [hlo] at hi
      have hget : i < t.keys.length := hi.trans_le (partitionPoint_le _ _)
      have hsep : t.keys[i] ≤ lo := by
        simpa using of_lt_partitionPoint hi (List.getElem?_eq_getElem hget)
      have hlt : e.1 < t.keys[i] :=
        hrange.below _ (by rw [List.getElem?_eq_getElem hget]; rfl)
      have hkey := hlt.trans_le hsep
      cases b.loInc <;> simp [isBefore, hkey, hkey.le]
  rw [contains_eq, hbelow]
  rfl

/-- A child behind the window has only keys above the bound. -/
theorem not_contains_after (b : KeyBound) {i : Nat} (hi : (childSpan b t.keys).2 ≤ i) {c : Tree ρ n}
    (hc : t.children[i]? = some c) : ∀ e ∈ records n c, b.contains e.1 = false := by
  intro e he
  have hrange := (ht.child hc).records_inRange e he
  have hlen := ht.length
  have hlt : i < t.children.length := (List.getElem?_eq_some_iff.mp hc).1
  simp only [childSpan] at hi
  rw [childWindow_eq] at hi
  have hcut : partitionPoint (upTo b) t.keys ≤ i - 1 := by
    have hmax := le_max_left (partitionPoint (upTo b) t.keys) (childWindow b t.keys).1
    omega
  have hget : i - 1 < t.keys.length := by omega
  have hinit : Initial (upTo b) t.keys := ht.seps_sorted.imp fun hlt => upTo_of_lt hlt
  have hsep : upTo b t.keys[i - 1] = false :=
    hinit.of_partitionPoint_le hcut (List.getElem?_eq_getElem hget)
  have hle : t.keys[i - 1] ≤ e.1 :=
    hrange.above _ (by rw [if_neg (by omega), List.getElem?_eq_getElem hget]; rfl)
  have hkey : upTo b e.1 = false := by
    rw [Bool.eq_false_iff]
    intro hup
    cases hle.lt_or_eq with
    | inl hlt => rw [upTo_of_lt hlt hup] at hsep; cases hsep
    | inr heq => rw [heq, hup] at hsep; cases hsep
  rw [contains_eq, hkey, Bool.and_false]

/-- The children of the window hold the records within the bound. -/
theorem filter_childSpan (b : KeyBound) :
    (slice (childSpan b t.keys) t.children).flatMap
        (fun c => (records n c).filter fun e => b.contains e.1) =
      (records (n + 1) t).filter fun e => b.contains e.1 := by
  have hnone : ∀ {cs : List (Tree ρ n)},
      (∀ c ∈ cs, ∀ e ∈ records n c, b.contains e.1 = false) →
        cs.flatMap (fun c => (records n c).filter fun e => b.contains e.1) = [] := by
    intro cs h
    refine List.flatMap_eq_nil_iff.mpr fun c hc => List.filter_eq_nil_iff.mpr fun e he => ?_
    rw [h c hc e he]
    exact Bool.false_ne_true
  have hbefore : (t.children.take (childSpan b t.keys).1).flatMap
      (fun c => (records n c).filter fun e => b.contains e.1) = [] := by
    refine hnone fun c hc => ?_
    obtain ⟨i, hi, hget⟩ := List.mem_iff_getElem.mp hc
    rw [List.length_take] at hi
    refine not_contains_before ht b (i := i) (by omega) ?_
    rw [← hget, List.getElem_take, List.getElem?_eq_getElem]
  have hafter : (t.children.drop (childSpan b t.keys).2).flatMap
      (fun c => (records n c).filter fun e => b.contains e.1) = [] := by
    refine hnone fun c hc => ?_
    obtain ⟨i, hi, hget⟩ := List.mem_iff_getElem.mp hc
    refine not_contains_after ht b (Nat.le_add_right _ i) ?_
    rw [← hget, List.getElem_drop, List.getElem?_eq_getElem]
  have hall : (records (n + 1) t).filter (fun e => b.contains e.1) =
      t.children.flatMap fun c => (records n c).filter fun e => b.contains e.1 := by
    rw [records, List.filter_flatMap]
  rw [hall]
  conv_rhs => rw [← append_slice (childSpan_le ht b).1 t.children]
  rw [List.flatMap_append, List.flatMap_append, hbefore, hafter, List.nil_append, List.append_nil]

end Inner

theorem recordsIn_zero (b : KeyBound) (reverse : Bool) (es : Leaf ρ) :
    recordsIn b reverse 0 es = inOrder reverse (slice (leafWindow b es) es) := by
  simp only [recordsIn, trace, List.filterMap_cons, Visit.record?, List.filterMap_map]
  exact List.filterMap_some

theorem recordsIn_succ (b : KeyBound) (reverse : Bool) {n : Nat} (t : Inner (Tree ρ n)) :
    recordsIn b reverse (n + 1) t =
      (inOrder reverse (slice (childSpan b t.keys) t.children)).flatMap (recordsIn b reverse n) := by
  simp only [recordsIn, trace, List.filterMap_cons, Visit.record?, List.filterMap_flatMap]
  rfl

/-- The records admitted are those within the bound, in the order of the traversal. -/
theorem recordsIn_eq (b : KeyBound) (reverse : Bool) {n : Nat} :
    ∀ {lo hi : Option Bytes} {t : Tree ρ n}, Ordered n lo hi t →
      recordsIn b reverse n t = inOrder reverse ((records n t).filter fun e => b.contains e.1) := by
  induction n with
  | zero =>
    intro lo hi t h
    have hzero := recordsIn_zero b reverse t
    rw [slice_leafWindow h.1] at hzero
    exact hzero
  | succ n ih =>
    intro lo hi t h
    have ht : Chain (Ordered n) lo t.keys t.children hi := h
    have hchild : ∀ c ∈ slice (childSpan b t.keys) t.children, recordsIn b reverse n c =
        inOrder reverse ((records n c).filter fun e => b.contains e.1) := by
      intro c hc
      have hmem : c ∈ t.children := List.mem_of_mem_take (List.mem_of_mem_drop hc)
      obtain ⟨i, hi, hget⟩ := List.mem_iff_getElem.mp hmem
      exact ih (ht.child (hget ▸ List.getElem?_eq_getElem hi))
    refine (recordsIn_succ b reverse t).trans ?_
    rw [← filter_childSpan ht b]
    cases reverse with
    | false => exact List.flatMap_congr hchild
    | true =>
      refine Eq.trans ?_ List.reverse_flatMap.symm
      exact List.flatMap_congr fun c hc => hchild c (List.mem_reverse.mp hc)

/-- The nodes entered, in either order. -/
theorem countP_trace (b : KeyBound) (reverse : Bool) {n : Nat} : ∀ {t : Tree ρ n},
    (trace b reverse n t).countP Visit.isNode = nodesIn b n t := by
  induction n with
  | zero =>
    intro t
    have hnone : ∀ l : List (Bytes × Rec ρ),
        (l.map Visit.record).countP Visit.isNode = 0 := by
      intro l
      rw [List.countP_map]
      exact List.countP_eq_zero.mpr fun e _ => Bool.false_ne_true
    simp only [trace, nodesIn, List.countP_cons, hnone]
    rfl
  | succ n ih =>
    intro t
    have hchildren : (List.countP Visit.isNode ∘ trace b reverse n) = nodesIn b n :=
      funext fun c => ih
    simp only [trace, nodesIn, List.countP_cons, List.countP_flatMap, hchildren, sum_inOrder]
    exact Nat.add_comm _ _

/-- Unbounded, every node is entered. -/
theorem nodesIn_unbounded (hlo : b.lo = none) (hhi : b.hi = none) {n : Nat} :
    ∀ {lo hi : Option Bytes} {t : Tree ρ n}, Ordered n lo hi t → nodesIn b n t = treeNodes n t := by
  induction n with
  | zero =>
    intro lo hi t _
    rfl
  | succ n ih =>
    intro lo hi t h
    have ht : Chain (Ordered n) lo t.keys t.children hi := h
    have hlen := ht.length
    have hall : slice (childSpan b t.keys) t.children = t.children := by
      simp only [slice, childSpan, childWindow, hlo, hhi, Nat.max_zero, List.drop_zero]
      exact List.take_of_length_le (by omega)
    simp only [nodesIn, treeNodes, hall]
    refine congrArg (fun l => 1 + List.sum l) (List.map_congr_left fun c hc => ?_)
    obtain ⟨i, hi, hget⟩ := List.mem_iff_getElem.mp hc
    exact ih (ht.child (hget ▸ List.getElem?_eq_getElem hi))

/-! ## Nodes that a bound overlaps

A scan enters a node of each level at least, and no more for an end that is earlier. -/

section Overlap

variable {ρ : Type}

/-- A traversal enters a node of each level. -/
theorem height_le_nodesIn (b : KeyBound) {n : ℕ} {lo hi : Option Bytes} {t : Tree ρ n}
    (h : Ordered n lo hi t) : n + 1 ≤ nodesIn b n t := by
  induction n generalizing lo hi with
  | zero => exact le_rfl
  | succ n ih =>
    have ht : KeyChain.Chain (Ordered n) lo (Inner.keys t) (Inner.children t) hi := h
    have hspan := (childSpan_le ht b).2
    have hfirst : (childSpan b (Inner.keys t)).1 < (childSpan b (Inner.keys t)).2 :=
      Nat.lt_succ_of_le (le_max_right _ _)
    have hlen : 0 < (slice (childSpan b (Inner.keys t)) (Inner.children t)).length := by
      rw [slice, List.length_drop, List.length_take]
      omega
    obtain ⟨c, hc⟩ := List.exists_mem_of_length_pos hlen
    have hmem : c ∈ Inner.children t := List.mem_of_mem_take (List.mem_of_mem_drop hc)
    obtain ⟨i, hi⟩ := List.getElem?_of_mem hmem
    have hchild := ih (ht.child hi)
    have hsum := List.single_le_sum (fun _ _ => Nat.zero_le _) (nodesIn b n c)
      (List.mem_map_of_mem hc)
    show n + 1 + 1 ≤ 1 + _
    omega

theorem partitionPoint_mono {α : Type} {p q : α → Bool} (hpq : ∀ a, p a = true → q a = true)
    (l : List α) : partitionPoint p l ≤ partitionPoint q l := by
  induction l with
  | nil => exact le_rfl
  | cons a l ih =>
    cases hp : p a with
    | true =>
      rw [partitionPoint_cons hp, partitionPoint_cons (hpq a hp)]
      exact Nat.succ_le_succ ih
    | false =>
      rw [partitionPoint, List.takeWhile_cons, hp]
      exact Nat.zero_le _

/-- An earlier end is entered in no more nodes. -/
theorem nodesIn_mono {lo hi hi' : Bytes} (h : hi ≤ hi') {n : ℕ} (t : Tree ρ n) :
    nodesIn ⟨some lo, true, some hi, true⟩ n t ≤ nodesIn ⟨some lo, true, some hi', true⟩ n t := by
  induction n with
  | zero => exact le_rfl
  | succ n ih =>
    have hkeys : ∀ keys : List Bytes,
        (childSpan ⟨some lo, true, some hi, true⟩ keys).2
          ≤ (childSpan ⟨some lo, true, some hi', true⟩ keys).2 := by
      intro keys
      have hmono := @partitionPoint_mono _ (fun k : Bytes => decide (k ≤ hi)) (fun k => decide (k ≤ hi'))
        (fun k hk => decide_eq_true ((of_decide_eq_true hk).trans h)) keys
      exact Nat.succ_le_succ (max_le_max hmono le_rfl)
    have hsub : (slice (childSpan ⟨some lo, true, some hi, true⟩ (Inner.keys t)) (Inner.children t)).Sublist
        (slice (childSpan ⟨some lo, true, some hi', true⟩ (Inner.keys t)) (Inner.children t)) :=
      (List.take_sublist_take_left (hkeys _)).drop _
    have hle : ∀ cs : List (Tree ρ n), (cs.map (nodesIn ⟨some lo, true, some hi, true⟩ n)).sum
        ≤ (cs.map (nodesIn ⟨some lo, true, some hi', true⟩ n)).sum :=
      fun cs => List.sum_le_sum fun c _ => ih c
    have hsum := (hsub.map (nodesIn ⟨some lo, true, some hi, true⟩ n)).sum_le_sum
      (fun _ _ => Nat.zero_le _)
    exact Nat.add_le_add_left (hsum.trans (hle _)) 1

end Overlap

end Jed.PMap
