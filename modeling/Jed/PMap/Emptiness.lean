import Jed.PMap.NodeFit

/-!
# Empty leaves

A committed leaf holds a record, and a table without rows has no tree. An insert keeps that. A remove
keeps it unless it takes the last record of a leaf that is its parent's only child: `rebalance_child`
finds no sibling to merge the leaf with, and no later step removes it. The law is proved to hold
along a run exactly when no remove of the run is of that kind.
-/

namespace Jed.PMap

open Arc

variable {ε ρ : Type} {cap : Cap} {shape : LeafShape}

/-- The node behind a child slot, if it is resident. -/
def slotNode? (h : Heap ε ρ) (slot : Child) : Option (Node ε ρ) := slot.addr?.bind h.node?

/-- How many records each leaf below a node holds, in key order. -/
def leafLens (h : Heap ε ρ) : Nat → Node ε ρ → List Nat
  | 0, _ => []
  | fuel + 1, nd =>
    if nd.isLeaf then [nd.len]
    else nd.children.flatMap (fun slot => ((slotNode? h slot).map (leafLens h fuel)).getD [])

/-- The emptiness law: no leaf but the root is empty, and there is no root exactly when there are no
    rows. -/
structure EmptinessLaw (h : Heap ε ρ) (m : PMap) : Prop where
  root : m.isEmpty ↔ m.count = some 0
  leaves : ∀ nd, m.root.bind h.node? = some nd → nd.isLeaf = false →
    0 ∉ leafLens h (depthBound h) nd

/-- Whether the descent for `key` ends in a leaf that holds `key` alone and is its parent's only
    child. `lone` says whether the node at hand is. -/
def drainsLone (h : Heap ε ρ) (key : Bytes) : Nat → Bool → Node ε ρ → Bool
  | 0, _, _ => false
  | fuel + 1, lone, nd =>
    if nd.isLeaf then lone && nd.len == 1 && nd.keyAt 0 == key
    else
      match (nd.children[childSlot nd.keys key]?).bind (slotNode? h) with
      | none => false
      | some c => drainsLone h key fuel (nd.children.length == 1) c

/-- Whether an edit takes the last record of a leaf without a sibling. -/
def Edit.drainsLone (h : Heap ε ρ) (m : PMap) : Edit ρ → Bool
  | .insert _ _ => false
  | .remove key =>
    match m.root.bind h.node? with
    | none => false
    | some nd => PMap.drainsLone h key (depthBound h) false nd

/-- The leaves of a tree, in key order. -/
def leaves : (n : Nat) → Tree ρ n → List (Leaf ρ)
  | 0, (es : Leaf ρ) => [es]
  | n + 1, (t : Inner (Tree ρ n)) => t.children.flatMap (leaves n)

/-- `drainsLone` on the tree value. -/
def drainsLoneLeaf (key : Bytes) : (n : Nat) → Bool → Tree ρ n → Bool
  | 0, lone, (es : Leaf ρ) => lone && es.map Prod.fst == [key]
  | n + 1, _, (t : Inner (Tree ρ n)) =>
    match t.children[childSlot t.keys key]? with
    | none => false
    | some c => drainsLoneLeaf key n (t.children.length == 1) c

/-- A leaf without records. -/
def emptyLeaf : Tree ρ 0 := ([] : Leaf ρ)

variable {n : Nat}

theorem flatten_leaves (t : Tree ρ n) : (leaves n t).flatten = records n t := by
  induction n with
  | zero => exact List.append_nil _
  | succ n ih =>
    simp only [leaves, records, List.flatMap, List.flatten_flatten, List.map_map]
    exact congrArg List.flatten (List.map_congr_left fun c _ => ih c)

theorem leaves_ne_nil {t : Tree ρ n} (hf : Fits cap shape n t) : leaves n t ≠ [] := by
  induction n with
  | zero => exact List.cons_ne_nil _ _
  | succ n ih =>
    obtain ⟨-, hlen, -, hkids⟩ := hf
    intro hnil
    cases hc : t.children with
    | nil => simp [hc] at hlen
    | cons c cs =>
      have hmem : c ∈ t.children := by simp [hc]
      exact ih (hkids c hmem) (List.flatMap_eq_nil_iff.mp hnil c hmem)

theorem records_ne_nil {t : Tree ρ n} (hf : Fits cap shape n t) (hl : [] ∉ leaves n t) :
    records n t ≠ [] := by
  intro hnil
  rw [← flatten_leaves, List.flatten_eq_nil_iff] at hnil
  obtain ⟨es, hes⟩ := List.exists_mem_of_ne_nil _ (leaves_ne_nil hf)
  exact hl (hnil es hes ▸ hes)

variable {es : Leaf ρ}

theorem buildLeaf_whole (hfit : leafPayload (es.map (·.2.weight)) shape ≤ cap.c)
    (edited : Option Nat) : buildLeaf es cap shape edited = .whole es := by
  have hnone : leafSplitPoint (es.map (·.2.weight)) cap shape edited = none := by
    simp [leafSplitPoint, hfit]
  rw [buildLeaf, hnone]

theorem buildLeaf_nonempty (hes : es ≠ []) (edited : Option Nat) :
    [] ∉ (buildLeaf es cap shape edited).nodes := by
  unfold buildLeaf
  split
  · simpa [Grown.nodes] using hes.symm
  · rename_i m hm
    obtain ⟨hm1, -⟩ := leafSplitPoint_mem hm
    split
    · simpa [Grown.nodes] using hes.symm
    · simp only [Grown.nodes, List.mem_cons, List.not_mem_nil, or_false, not_or]
      refine ⟨fun h => ?_, List.cons_ne_nil _ _ ∘ Eq.symm⟩
      rcases List.take_eq_nil_iff.mp h.symm with h | h
      · omega
      · exact hes h

/-- The children of an interior split are those of the node. -/
theorem buildInterior_contents {τ α : Type} (f : τ → List α) {t : Inner τ} {edited : Option Nat}
    {g : Grown (Inner τ)} (hg : buildInterior t cap edited = some g) :
    g.contents (fun u => u.children.flatMap f) = t.children.flatMap f := by
  unfold buildInterior at hg
  split at hg
  · obtain rfl := Option.some.inj hg
    rfl
  · simp only [Option.bind_eq_bind, Option.bind_eq_some_iff] at hg
    obtain ⟨m, -, sep, -, hg⟩ := hg
    obtain rfl := Option.some.inj hg
    simp only [Grown.contents]
    rw [← List.flatMap_append, List.take_append_drop]

theorem leafInsert_ne_nil (key : Bytes) (rec : Rec ρ) (hes : es ≠ []) :
    (leafInsert es key rec).1 ≠ [] := by
  have hlen : 0 < (leafInsert es key rec).1.length := by
    have hpos := List.length_pos_iff.mpr hes
    unfold leafInsert
    split
    · simpa using hpos
    · simp only [List.length_insertIdx]
      split <;> omega
  exact List.length_pos_iff.mp hlen

variable {key : Bytes} {rec : Rec ρ}

/-- An insert empties no leaf. -/
theorem insertTree_leaves :
    ∀ {t : Tree ρ n} {g : Grown (Tree ρ n)} {old : Option ρ}, [] ∉ leaves n t →
      insertTree cap shape n t key rec = some (g, old) → [] ∉ g.contents (leaves n) := by
  induction n with
  | zero =>
    intro (t : Leaf ρ) g old ht hins
    simp only [insertTree, Option.some.injEq] at hins
    obtain ⟨rfl, -⟩ := hins
    have hne : (leafInsert t key rec).1 ≠ [] :=
      leafInsert_ne_nil key rec (fun h => ht (by simp [leaves, h]))
    change [] ∉ Grown.contents (fun es : Leaf ρ => [es]) _
    rw [← Grown.flatMap_nodes]
    intro hmem
    obtain ⟨es, hes, hmem⟩ := List.mem_flatMap.mp hmem
    exact buildLeaf_nonempty hne _ (List.mem_singleton.mp hmem ▸ hes)
  | succ n ih =>
    intro t g old ht hins
    simp only [insertTree] at hins
    generalize childSlot t.keys key = i at hins
    simp only [Option.bind_eq_bind, Option.bind_eq_some_iff] at hins
    obtain ⟨c, hc, ⟨sub, old'⟩, hsub, hins⟩ := hins
    have hkid : ∀ u ∈ t.children, [] ∉ leaves n u := fun u hu h => ht (List.mem_flatMap.mpr ⟨u, hu, h⟩)
    have hgrown := ih (hkid c (List.mem_of_getElem? hc)) hsub
    obtain ⟨hi, -⟩ := List.getElem?_eq_some_iff.mp hc
    -- the new list of children has no empty leaf below it, wherever it is cut
    have hnew : [] ∉ (t.children.take i ++ sub.nodes ++ t.children.drop (i + 1)).flatMap (leaves n) := by
      simp only [List.flatMap_append, Grown.flatMap_nodes, List.mem_append, not_or]
      refine ⟨⟨fun h => ?_, hgrown⟩, fun h => ?_⟩
      · obtain ⟨u, hu, h⟩ := List.mem_flatMap.mp h
        exact hkid u (List.mem_of_mem_take hu) h
      · obtain ⟨u, hu, h⟩ := List.mem_flatMap.mp h
        exact hkid u (List.mem_of_mem_drop hu) h
    cases sub with
    | whole c' =>
      simp only [Option.some.injEq, Prod.mk.injEq] at hins
      obtain ⟨rfl, -⟩ := hins
      simpa [Grown.contents, Grown.nodes, leaves, Splice.set_eq hi] using hnew
    | split left sep right =>
      simp only [Option.bind_eq_some_iff, Option.some.injEq] at hins
      obtain ⟨g', hg', hres⟩ := hins
      obtain ⟨rfl, -⟩ := Prod.mk.inj hres
      have hcont : g'.contents (leaves (n + 1)) = _ := buildInterior_contents (leaves n) hg'
      rw [hcont, Splice.set_insertIdx_eq hi]
      simpa [Grown.nodes] using hnew

variable {j : Nat}

/-- The children a merge leaves: those it found, or those with the pair replaced by the merged
    node. -/
theorem mergeAt_children {t t' : Inner (Tree ρ n)} (hm : mergeAt cap shape n t j = some t') :
    t' = t ∨ ∃ l r sep g, t.children[j]? = some l ∧ t.children[j + 1]? = some r ∧
      mergedPair cap shape n l sep r = some g ∧
      t'.children = t.children.take j ++ g.nodes ++ t.children.drop (j + 2) := by
  simp only [mergeAt, Option.bind_eq_bind, Option.bind_eq_some_iff] at hm
  obtain ⟨l, hl, r, hr, sep, hsep, hm⟩ := hm
  split at hm
  · exact .inl (Option.some.inj hm).symm
  · rename_i g hg
    obtain rfl := Option.some.inj hm
    split
    · exact .inl rfl
    · obtain ⟨hj, -⟩ := List.getElem?_eq_some_iff.mp hr
      obtain ⟨hk, -⟩ := List.getElem?_eq_some_iff.mp hsep
      exact .inr ⟨l, r, sep, g, hl, hr, hg, by rw [replacePair_eq hj hk]⟩

theorem mergeAt_leaves {t t' : Inner (Tree ρ (n + 1))} (hm : mergeAt cap shape (n + 1) t j = some t') :
    t'.children.flatMap (leaves (n + 1)) = t.children.flatMap (leaves (n + 1)) := by
  rcases mergeAt_children hm with rfl | ⟨l, r, sep, g, hl, hr, hg, hc⟩
  · rfl
  · have hcont : g.contents (leaves (n + 1)) = _ := buildInterior_contents (leaves n) hg
    rw [hc, List.flatMap_append, List.flatMap_append, Grown.flatMap_nodes, hcont]
    conv_rhs => rw [Splice.eq_cut_pair hl hr]
    simp [leaves]

variable {i : Nat}

theorem rebalanceChild_leaves {t t' : Inner (Tree ρ (n + 1))}
    (hr : rebalanceChild cap shape (n + 1) t i = some t') :
    t'.children.flatMap (leaves (n + 1)) = t.children.flatMap (leaves (n + 1)) := by
  simp only [rebalanceChild, Option.bind_eq_bind, Option.bind_eq_some_iff] at hr
  obtain ⟨c, -, hr⟩ := hr
  split at hr
  · obtain rfl := Option.some.inj hr
    rfl
  · split at hr
    · obtain rfl := Option.some.inj hr
      rfl
    · exact mergeAt_leaves hr

theorem mergedPair_empty {l r u : Tree ρ 0} {sep : Bytes}
    (hu : l = emptyLeaf ∧ r = u ∨ l = u ∧ r = emptyLeaf) (hfit : Fits cap shape 0 u) :
    mergedPair cap shape 0 l sep r = some (.whole u) := by
  have hwhole : buildLeaf u cap shape none = .whole u := buildLeaf_whole hfit.1 none
  rcases hu with ⟨rfl, rfl⟩ | ⟨rfl, rfl⟩
  · exact congrArg some hwhole
  · have hnil : l.append emptyLeaf = l := List.append_nil l
    exact congrArg some ((congrArg (buildLeaf · cap shape none) hnil).trans hwhole)

variable {t t' : Inner (Tree ρ 0)}

/-- Merging an empty leaf into its neighbour is never abandoned. -/
theorem mergeAt_empty {l r u : Tree ρ 0}
    (hm : mergeAt cap shape 0 t j = some t') (hl : t.children[j]? = some l)
    (hr : t.children[j + 1]? = some r) (hu : l = emptyLeaf ∧ r = u ∨ l = u ∧ r = emptyLeaf)
    (hfit : Fits cap shape 0 u) :
    t'.children = t.children.take j ++ [u] ++ t.children.drop (j + 2) := by
  obtain ⟨hj, -⟩ := List.getElem?_eq_some_iff.mp hr
  simp only [mergeAt, hl, hr, Option.bind_eq_bind, Option.bind_some, Option.bind_eq_some_iff] at hm
  obtain ⟨sep, hsep, hm⟩ := hm
  obtain ⟨hk, -⟩ := List.getElem?_eq_some_iff.mp hsep
  rw [mergedPair_empty hu hfit] at hm
  simp only [overflowsParent, Bool.false_eq_true, if_false, Option.some.injEq] at hm
  rw [← hm, replacePair_eq hj hk]
  rfl

/-- Rebalancing a child that still holds records leaves no empty leaf. -/
theorem rebalanceChild_nonempty
    (hr : rebalanceChild cap shape 0 t i = some t') (ht : emptyLeaf ∉ t.children) :
    emptyLeaf ∉ t'.children := by
  simp only [rebalanceChild, Option.bind_eq_bind, Option.bind_eq_some_iff] at hr
  obtain ⟨c, -, hr⟩ := hr
  split at hr
  · obtain rfl := Option.some.inj hr
    exact ht
  · split at hr
    · obtain rfl := Option.some.inj hr
      exact ht
    · rcases mergeAt_children hr with rfl | ⟨l, r, sep, g, hjl, -, hg, hc⟩
      · exact ht
      · obtain rfl := Option.some.inj hg
        rw [hc]
        simp only [List.mem_append, not_or]
        refine ⟨⟨fun h => ht (List.mem_of_mem_take h), buildLeaf_nonempty (fun hnil => ?_) none⟩,
          fun h => ht (List.mem_of_mem_drop h)⟩
        have hl : l = emptyLeaf := (List.append_eq_nil_iff.mp hnil).1
        exact ht (hl ▸ List.mem_of_getElem? hjl)

/-- Rebalancing an empty leaf merges it away, unless it has no sibling. -/
theorem rebalanceChild_empty (hcap : CapOk cap shape)
    (hr : rebalanceChild cap shape 0 t i = some t') (hi : t.children[i]? = some emptyLeaf)
    (hfit : ∀ c ∈ t.children, Fits cap shape 0 c)
    (hothers : ∀ j, j ≠ i → t.children[j]? ≠ some emptyLeaf) :
    emptyLeaf ∈ t'.children ↔ t.children.length = 1 := by
  have hunder : underfull cap shape 0 (emptyLeaf : Tree ρ 0) = true := by
    have hrec := hcap.record
    simp only [underfull, payload, emptyLeaf, leafPayload, leafOverhead, LeafShape.k, List.map_nil,
      List.sum_nil, List.length_nil, decide_eq_true_eq] at hrec ⊢
    omega
  obtain ⟨hlt, -⟩ := List.getElem?_eq_some_iff.mp hi
  simp only [rebalanceChild, hi, Option.bind_eq_bind, Option.bind_some, hunder, Bool.not_true,
    Bool.false_eq_true, if_false] at hr
  have htake : ∀ j, j ≤ i → emptyLeaf ∉ t.children.take j := by
    intro j hj hmem
    obtain ⟨k, hk⟩ := List.mem_iff_getElem?.mp hmem
    have hkj : k < j := by
      have := (List.getElem?_eq_some_iff.mp hk).1
      rw [List.length_take] at this
      omega
    rw [List.getElem?_take_of_lt hkj] at hk
    exact hothers k (by omega) hk
  have hdrop : ∀ j, i < j → emptyLeaf ∉ t.children.drop j := by
    intro j hj hmem
    obtain ⟨k, hk⟩ := List.mem_iff_getElem?.mp hmem
    rw [List.getElem?_drop] at hk
    exact hothers (j + k) (by omega) hk
  -- the pair merged holds the empty leaf and one other, which stays
  have hmerged : ∀ j u, t'.children = t.children.take j ++ [u] ++ t.children.drop (j + 2) →
      u ≠ emptyLeaf → j ≤ i → i < j + 2 → emptyLeaf ∉ t'.children := by
    intro j u hc hu hj hj' hmem
    rw [hc] at hmem
    simp only [List.mem_append, List.mem_singleton] at hmem
    rcases hmem with (hmem | hmem) | hmem
    · exact htake j hj hmem
    · exact hu hmem.symm
    · exact hdrop (j + 2) hj' hmem
  split at hr
  · obtain rfl := Option.some.inj hr
    exact ⟨fun _ => by omega, fun _ => List.mem_of_getElem? hi⟩
  · refine ⟨fun hmem => absurd hmem ?_, fun hone => by omega⟩
    split at hr
    · rename_i hnext
      obtain ⟨r, hjr⟩ : ∃ r, t.children[i + 1]? = some r := ⟨_, List.getElem?_eq_getElem hnext⟩
      have hne : r ≠ emptyLeaf := fun h => hothers (i + 1) (by omega) (h ▸ hjr)
      exact hmerged i r (mergeAt_empty hr hi hjr (.inl ⟨rfl, rfl⟩) (hfit r (List.mem_of_getElem? hjr)))
        hne le_rfl (by omega)
    · have hback : i - 1 + 1 = i := by omega
      obtain ⟨l, hjl⟩ : ∃ l, t.children[i - 1]? = some l := ⟨_, List.getElem?_eq_getElem (by omega)⟩
      have hne : l ≠ emptyLeaf := fun h => hothers (i - 1) (by omega) (h ▸ hjl)
      exact hmerged (i - 1) l (mergeAt_empty hr hjl (hback.symm ▸ hi) (.inr ⟨rfl, rfl⟩)
        (hfit l (List.mem_of_getElem? hjl))) hne (by omega) (by omega)

/-- A remove leaves an empty leaf exactly when it takes the last record of a leaf without a
    sibling. -/
theorem removeTree_leaves (hcap : CapOk cap shape) :
    ∀ {lo hi : Option Bytes} {t t' : Tree ρ n} {row : Option ρ}, Ordered n lo hi t →
      KeyChain.InRange lo hi key → Fits cap shape n t → [] ∉ leaves n t →
      removeTree cap shape n t key = some (row, t') →
      ([] ∈ leaves n t' ↔ drainsLoneLeaf key n true t = true) := by
  induction n with
  | zero =>
    intro lo hi (t : Leaf ρ) t' row hord _ _ ht hrem
    have hsearch := searchKeys_spec hord.1 key
    simp only [removeTree] at hrem
    cases hres : searchKeys (List.map Prod.fst t) key with
    | error i =>
      simp only [hres, Option.some.injEq] at hsearch hrem
      obtain ⟨-, rfl⟩ := hrem
      obtain ⟨l, r, rfl, -, hl, hr⟩ := hsearch
      refine ⟨fun h => (ht h).elim, fun h => ?_⟩
      have hkey : key ∈ (l ++ r).map Prod.fst := by
        simp only [drainsLoneLeaf, Bool.true_and, beq_iff_eq] at h
        simp [h]
      obtain ⟨e, he, rfl⟩ := List.mem_map.mp hkey
      rcases List.mem_append.mp he with he | he
      · exact absurd (hl e he) (lt_irrefl _)
      · exact absurd (hr e he) (lt_irrefl _)
    | ok i =>
      simp only [hres, Option.some.injEq] at hsearch hrem
      obtain ⟨l, rec, r, rfl, rfl, hl, hr⟩ := hsearch
      obtain ⟨-, rfl⟩ := hrem
      have herase : (l ++ (key, rec) :: r).eraseIdx l.length = l ++ r := by
        simp [Splice.eraseIdx_eq]
      simp only [leaves, herase, drainsLoneLeaf, Bool.true_and, beq_iff_eq, List.mem_singleton]
      constructor
      · intro h
        obtain ⟨rfl, rfl⟩ := List.append_eq_nil_iff.mp h.symm
        rfl
      · intro h
        have hlen := congrArg List.length h
        simp only [List.length_map, List.length_append, List.length_cons, List.length_nil] at hlen
        have hl0 : l = [] := List.length_eq_zero_iff.mp (by omega)
        have hr0 : r = [] := List.length_eq_zero_iff.mp (by omega)
        rw [hl0, hr0]
        rfl
  | succ n ih =>
    intro lo hi t t' row hord hk hf ht hrem
    obtain ⟨c, lo', hi', hc, -, hr, hp, -⟩ := Ordered.at_slot hord hk
    obtain ⟨-, -, -, hkids⟩ := hf
    simp only [removeTree] at hrem
    simp only [drainsLoneLeaf]
    generalize childSlot t.keys key = i at *
    simp only [hc, Option.bind_eq_bind, Option.bind_some, Option.bind_eq_some_iff] at hrem ⊢
    obtain ⟨⟨removed, c'⟩, hsub, hrem⟩ := hrem
    have hkid : ∀ u ∈ t.children, [] ∉ leaves n u := fun u hu h => ht (List.mem_flatMap.mpr ⟨u, hu, h⟩)
    have hmemc := List.mem_of_getElem? hc
    have hchild := ih hp hr (hkids c hmemc) (hkid c hmemc) hsub
    obtain ⟨hi, -⟩ := List.getElem?_eq_some_iff.mp hc
    cases removed with
    | none =>
      obtain ⟨-, rfl⟩ := Prod.mk.inj (Option.some.inj hrem)
      obtain rfl := removeTree_absent hsub
      refine ⟨fun h => (ht h).elim, fun h => ?_⟩
      refine absurd (hchild.mpr ?_) (hkid c' hmemc)
      cases n with
      | zero =>
        simp only [drainsLoneLeaf, Bool.and_eq_true, Bool.true_and] at h ⊢
        exact h.2
      | succ n => exact h
    | some row =>
      simp only [Option.bind_eq_some_iff, Option.some.injEq] at hrem
      obtain ⟨t₂, hreb, hres⟩ := hrem
      obtain ⟨-, rfl⟩ := Prod.mk.inj hres
      obtain ⟨old', t₃, hsub', hfit'⟩ := remove_fits hcap hp hr (hkids c hmemc)
      obtain ⟨-, rfl⟩ := Prod.mk.inj (Option.some.inj (hsub.symm.trans hsub'))
      cases n with
      | zero =>
        have hne : ∀ u ∈ t.children, u ≠ emptyLeaf := fun u hu h =>
          hkid u hu (h ▸ List.mem_singleton_self _)
        have hset : ∀ j, j ≠ i → (t.children.set i c')[j]? ≠ some emptyLeaf := by
          intro j hj h
          rw [List.getElem?_set_ne (Ne.symm hj)] at h
          exact hne _ (List.mem_of_getElem? h) rfl
        have hfits : ∀ u ∈ t.children.set i c', Fits cap shape 0 u := by
          intro u hu
          rcases List.mem_or_eq_of_mem_set hu with hu | rfl
          · exact hkids u hu
          · exact hfit'
        have hleaves : [] ∈ leaves 1 t₂ ↔ emptyLeaf ∈ t₂.children := by
          refine ⟨fun h => ?_, fun h => List.mem_flatMap.mpr ⟨_, h, List.mem_singleton_self _⟩⟩
          obtain ⟨u, hu, h⟩ := List.mem_flatMap.mp h
          have hnil : emptyLeaf = u := List.mem_singleton.mp h
          exact hnil ▸ hu
        have hdrain : drainsLoneLeaf key 0 (t.children.length == 1) c =
            ((t.children.length == 1) && drainsLoneLeaf key 0 true c) := rfl
        rw [hleaves, hdrain, Bool.and_eq_true, ← hchild, beq_iff_eq]
        by_cases hempty : c' = emptyLeaf
        · rw [rebalanceChild_empty hcap hreb (by rw [List.getElem?_set_self hi, hempty]) hfits hset,
            List.length_set]
          exact (and_iff_left (hempty ▸ List.mem_singleton_self _)).symm
        · refine iff_of_false (rebalanceChild_nonempty hreb fun hmem => ?_) fun h => ?_
          · rcases List.mem_or_eq_of_mem_set hmem with hu | hu
            · exact hne _ hu rfl
            · exact hempty hu.symm
          · exact hempty (List.mem_singleton.mp h.2).symm
      | succ n =>
        have hdrain : drainsLoneLeaf key (n + 1) (t.children.length == 1) c =
            drainsLoneLeaf key (n + 1) true c := rfl
        rw [hdrain, ← hchild]
        change [] ∈ t₂.children.flatMap (leaves (n + 1)) ↔ _
        rw [rebalanceChild_leaves hreb, Splice.set_eq hi, List.flatMap_append, List.flatMap_cons]
        simp only [List.mem_append]
        refine ⟨fun h => ?_, fun h => .inr (.inl h)⟩
        rcases h with h | h | h
        · obtain ⟨u, hu, h⟩ := List.mem_flatMap.mp h
          exact absurd h (hkid u (List.mem_of_mem_take hu))
        · exact h
        · obtain ⟨u, hu, h⟩ := List.mem_flatMap.mp h
          exact absurd h (hkid u (List.mem_of_mem_drop hu))

/-- No leaf of the map's tree is empty, its root included. -/
def TreeMap.LeavesFull (tm : TreeMap ρ) : Prop := ∀ n t, tm.root = some ⟨n, t⟩ → [] ∉ leaves n t

/-- `Edit.drainsLone` on the tree value. -/
def Edit.drainsLoneLeaf (tm : TreeMap ρ) : Edit ρ → Bool
  | .insert _ _ => false
  | .remove key =>
    match tm.root with
    | none => false
    | some ⟨n, t⟩ => PMap.drainsLoneLeaf key n false t

variable {tm tm' : TreeMap ρ} {old : Option ρ}

theorem TreeMap.insert_leaves (hfull : tm.LeavesFull) (hins : tm.insert cap shape key rec = some (old, tm')) :
    tm'.LeavesFull := by
  simp only [TreeMap.insert] at hins
  split at hins
  · obtain ⟨-, rfl⟩ := Prod.mk.inj (Option.some.inj hins)
    rintro n t heq
    cases heq
    simp [leaves]
  · rename_i n t hroot
    simp only [Option.bind_eq_bind, Option.bind_eq_some_iff, Option.some.injEq] at hins
    obtain ⟨⟨g, old'⟩, hins, hres⟩ := hins
    obtain ⟨-, rfl⟩ := Prod.mk.inj hres
    have hg := insertTree_leaves (hfull n t hroot) hins
    rintro n' t' heq
    cases g with
    | whole u =>
      cases heq
      exact hg
    | split left sep right =>
      cases heq
      simpa [leaves, Grown.contents] using hg

/-- The root a remove leaves is none, or has the leaves of the tree below it. -/
theorem collapseRoot_leaves {t : Tree ρ n} (hf : Fits cap shape n t)
    {root : Option ((n : Nat) × Tree ρ n)} (h : collapseRoot n t = some root) :
    (root = none ∧ n = 0) ∨ ∃ n' t', root = some ⟨n', t'⟩ ∧ leaves n' t' = leaves n t ∧
      (n = 0 → [] ∉ leaves n' t') := by
  cases n with
  | zero =>
    simp only [collapseRoot, Option.some.injEq] at h
    split at h
    · exact .inl ⟨h.symm, rfl⟩
    · rename_i hne
      refine .inr ⟨0, t, h.symm, rfl, fun _ hmem => hne ?_⟩
      exact List.isEmpty_iff.mpr (List.mem_singleton.mp hmem).symm
  | succ n =>
    refine .inr ?_
    simp only [collapseRoot] at h
    split at h
    · rename_i hkeys
      obtain ⟨-, hlen, -, -⟩ := hf
      rw [List.isEmpty_iff.mp hkeys] at hlen
      obtain ⟨c, hc⟩ := List.length_eq_one_iff.mp hlen
      rw [hc] at h
      refine ⟨n, c, (Option.some.inj h).symm, by simp [leaves, hc], fun h0 => by cases h0⟩
    · exact ⟨n + 1, t, (Option.some.inj h).symm, rfl, fun h0 => by cases h0⟩

theorem drainsLoneLeaf_root (t : Tree ρ n) :
    drainsLoneLeaf key n false t = (decide (n ≠ 0) && drainsLoneLeaf key n true t) := by
  cases n <;> simp [drainsLoneLeaf]

/-- A remove keeps every leaf full exactly when it drains no leaf without a sibling. -/
theorem TreeMap.remove_leaves (hok : tm.Ok cap shape) (hfull : tm.LeavesFull)
    (hrem : tm.remove cap shape key = some (old, tm')) :
    tm'.LeavesFull ↔ (Edit.remove key : Edit ρ).drainsLoneLeaf tm = false := by
  simp only [TreeMap.remove] at hrem
  split at hrem
  · rename_i hroot
    obtain ⟨-, rfl⟩ := Prod.mk.inj (Option.some.inj hrem)
    exact iff_of_true hfull (by simp [Edit.drainsLoneLeaf, hroot])
  · rename_i n t hroot
    obtain ⟨hcap, hord, hfit⟩ := hok.tree n t hroot
    have hdrain : (Edit.remove key : Edit ρ).drainsLoneLeaf tm =
        (decide (n ≠ 0) && PMap.drainsLoneLeaf key n true t) := by
      simp only [Edit.drainsLoneLeaf, hroot, drainsLoneLeaf_root]
    simp only [Option.bind_eq_bind, Option.bind_eq_some_iff] at hrem
    obtain ⟨⟨row, t'⟩, hrem, hres⟩ := hrem
    have hleaf := removeTree_leaves hcap hord (inRange_none key) hfit (hfull n t hroot) hrem
    obtain ⟨row', t₂, hrem', hfit'⟩ := remove_fits hcap hord (inRange_none key) hfit
    obtain ⟨-, rfl⟩ := Prod.mk.inj (Option.some.inj (hrem.symm.trans hrem'))
    rw [hdrain]
    cases row with
    | none =>
      obtain ⟨-, rfl⟩ := Prod.mk.inj (Option.some.inj hres)
      obtain rfl := removeTree_absent hrem
      refine iff_of_true hfull ?_
      rw [Bool.eq_false_iff.mpr (fun h => hfull n t' hroot (hleaf.mpr h)), Bool.and_false]
    | some row =>
      simp only [Option.bind_eq_some_iff, Option.some.injEq] at hres
      obtain ⟨root, hcollapse, hres⟩ := hres
      obtain ⟨-, rfl⟩ := Prod.mk.inj hres
      rcases collapseRoot_leaves hfit' hcollapse with ⟨rfl, rfl⟩ | ⟨n', u, rfl, hu, hzero⟩
      · exact iff_of_true (fun n t h => by cases h) rfl
      · have hnew : TreeMap.LeavesFull ⟨some ⟨n', u⟩, tm.count - 1⟩ ↔ [] ∉ leaves n' u := by
          refine ⟨fun h => h n' u rfl, fun h n t heq => ?_⟩
          cases heq
          exact h
        rw [hnew]
        by_cases hn : n = 0
        · exact iff_of_true (hzero hn) (by simp [hn])
        · rw [hu, hleaf]
          simp [hn]

theorem TreeMap.edit_leaves {e : Edit ρ}
    (hok : tm.Ok cap shape) (hfull : tm.LeavesFull) (he : tm.edit cap shape e = some (old, tm')) :
    tm'.LeavesFull ↔ e.drainsLoneLeaf tm = false := by
  cases e with
  | insert key rec => exact iff_of_true (TreeMap.insert_leaves hfull he) rfl
  | remove key => exact TreeMap.remove_leaves hok hfull he

variable {h : Heap ε ρ}

theorem slotNode?_rep {slot : Child} {t : Tree ρ n} (hs : RepSlot noDisk (Rep noDisk h n) slot t) :
    ∃ nd, slotNode? h slot = some nd ∧ NodeRep noDisk h n nd t := by
  cases slot with
  | resident a => exact Rep.node hs
  | onDisk p => cases n <;> cases hs

theorem leafLens_eq : ∀ {fuel : Nat} {nd : Node ε ρ} {t : Tree ρ n},
    n < fuel → NodeRep noDisk h n nd t → leafLens h fuel nd = (leaves n t).map List.length := by
  induction n with
  | zero =>
    intro fuel nd t hfuel hr
    obtain ⟨fuel, rfl⟩ : ∃ k, fuel = k + 1 := ⟨fuel - 1, by omega⟩
    simp only [leafLens, Node.IsLeafOf.isLeaf hr, if_true, Node.IsLeafOf.len hr, leaves]
    rfl
  | succ n ih =>
    intro fuel nd t hfuel hr
    obtain ⟨fuel, rfl⟩ : ∃ k, fuel = k + 1 := ⟨fuel - 1, by omega⟩
    have hrel : InnerRel (RepSlot noDisk (Rep noDisk h n)) nd.inner t := hr
    simp only [leafLens, hrel.not_isLeaf, Bool.false_eq_true, if_false, leaves]
    have hkids : List.Forall₂ (RepSlot noDisk (Rep noDisk h n)) nd.children t.children := hrel.children
    generalize nd.children = slots at hkids ⊢
    generalize t.children = trees at hkids ⊢
    induction hkids with
    | nil => rfl
    | cons hs _ ihs =>
      obtain ⟨c, hc, hnr⟩ := slotNode?_rep hs
      rw [List.flatMap_cons, List.flatMap_cons, List.map_append, ihs, hc]
      exact congrArg (· ++ _) (ih (by omega) hnr)

theorem drainsLone_eq :
    ∀ {fuel : Nat} {lone : Bool} {nd : Node ε ρ} {t : Tree ρ n}, n < fuel → NodeRep noDisk h n nd t →
      drainsLone h key fuel lone nd = drainsLoneLeaf key n lone t := by
  induction n with
  | zero =>
    intro fuel lone nd (t : Leaf ρ) hfuel hr
    obtain ⟨fuel, rfl⟩ : ∃ k, fuel = k + 1 := ⟨fuel - 1, by omega⟩
    simp only [drainsLone, Node.IsLeafOf.isLeaf hr, if_true, Node.IsLeafOf.len hr,
      Node.IsLeafOf.keyAt hr, drainsLoneLeaf]
    cases t with
    | nil => simp
    | cons e es => cases es <;> simp
  | succ n ih =>
    intro fuel lone nd t hfuel hr
    obtain ⟨fuel, rfl⟩ : ∃ k, fuel = k + 1 := ⟨fuel - 1, by omega⟩
    have hrel : InnerRel (RepSlot noDisk (Rep noDisk h n)) nd.inner t := hr
    have hkeys : nd.keys = t.keys := hrel.keys
    have hkids : List.Forall₂ (RepSlot noDisk (Rep noDisk h n)) nd.children t.children := hrel.children
    simp only [drainsLone, hrel.not_isLeaf, Bool.false_eq_true, if_false, drainsLoneLeaf, hkeys,
      hkids.length_eq]
    cases hc : t.children[childSlot t.keys key]? with
    | none =>
      rw [List.getElem?_eq_none_iff, ← hkids.length_eq, ← List.getElem?_eq_none_iff] at hc
      rw [hc]
      rfl
    | some c =>
      obtain ⟨slot, hslot, hs, -, -⟩ := forall₂_cut hkids hc
      obtain ⟨cn, hcn, hnr⟩ := slotNode?_rep hs
      rw [hslot, Option.bind_some, hcn]
      exact ih (by omega) hnr

theorem emptinessLaw_iff {m : PMap} (hr : MapRep noDisk h m tm)
    (hok : tm.Ok cap shape) : EmptinessLaw h m ↔ tm.LeavesFull := by
  obtain ⟨mroot, mcount⟩ := m
  obtain ⟨troot, tcount⟩ := tm
  obtain ⟨hcount, hroot⟩ := hr
  obtain rfl : mcount = some tcount := hcount
  have hexact : tcount = _ := hok.count
  cases hroot with
  | empty =>
    refine iff_of_true ⟨?_, fun nd hnd => by cases hnd⟩ (fun n t h => by cases h)
    rw [hexact]
    exact iff_of_true rfl rfl
  | @root n a t hrep =>
    obtain ⟨-, -, hfit⟩ := hok.tree n t rfl
    obtain ⟨nd, hn, hnr⟩ := hrep.node
    have hfull : TreeMap.LeavesFull ⟨some ⟨n, t⟩, tcount⟩ ↔ [] ∉ leaves n t := by
      refine ⟨fun h => h n t rfl, fun h n t heq => ?_⟩
      cases heq
      exact h
    have hlens : 0 ∉ leafLens h (depthBound h) nd ↔ [] ∉ leaves n t := by
      rw [leafLens_eq hrep.height_le hnr]
      simp [List.length_eq_zero_iff]
    have hcontents : TreeMap.contents ⟨some ⟨n, t⟩, tcount⟩ = records n t := rfl
    rw [hcontents] at hexact
    rw [hfull]
    constructor
    · intro hlaw hmem
      cases n with
      | zero =>
        have hnil : records 0 t = [] := (List.mem_singleton.mp hmem).symm
        have hzero : some tcount = some (0 : Int) := by rw [hexact, hnil]; rfl
        exact absurd (hlaw.root.mpr hzero) (by simp [PMap.isEmpty])
      | succ n =>
        have hinner : nd.isLeaf = false := InnerRel.not_isLeaf hnr
        exact hlens.mp (hlaw.leaves nd hn hinner) hmem
    · intro hmem
      refine ⟨iff_of_false (by simp [PMap.isEmpty]) fun hzero => ?_, fun nd' hnd' _ => ?_⟩
      · have h0 : tcount = 0 := Option.some.inj hzero
        refine records_ne_nil hfit hmem (List.length_eq_zero_iff.mp ?_)
        omega
      · obtain rfl : nd = nd' := Option.some.inj (hn.symm.trans hnd')
        exact hlens.mpr hmem

theorem Edit.drainsLone_eq {m : PMap} (hr : MapRep noDisk h m tm)
    (e : Edit ρ) : e.drainsLone h m = e.drainsLoneLeaf tm := by
  cases e with
  | insert => rfl
  | remove key =>
    obtain ⟨mroot, mcount⟩ := m
    obtain ⟨troot, tcount⟩ := tm
    obtain ⟨-, hroot⟩ := hr
    cases hroot with
    | empty => rfl
    | root hrep =>
      obtain ⟨nd, hn, hnr⟩ := hrep.node
      simp only [Edit.drainsLone, Option.bind_some, hn, Edit.drainsLoneLeaf]
      exact PMap.drainsLone_eq hrep.height_le hnr

/-- The map, and the nodes behind it, after a run of edits from the empty map. -/
def afterEdits (src : Option (LeafSource ε ρ)) (cap : Cap) (shape : LeafShape)
    (edits : List (Edit ρ)) : PMap × Heap ε ρ :=
  edits.foldl (fun s e => (applyEdit src cap shape s.2 s.1 e).2) (PMap.new, ⟨[]⟩)

/-- The invariant of a run: the counts are exact and the map represents a well-formed tree. -/
structure EditedOk (cap : Cap) (shape : LeafShape) (s : PMap × Heap ε ρ) (tm : TreeMap ρ) : Prop where
  counted : Counted Node.kids s.2 (s.1.refs ++ [])
  rep : MapRep noDisk s.2 s.1 tm
  ok : tm.Ok cap shape

/-- One edit, on a map that keeps the law: it keeps it exactly when it drains no leaf without a
    sibling. -/
theorem EditedOk.step (src : Option (LeafSource ε ρ)) (hsep : SepFits cap shape) {s : PMap × Heap ε ρ}
    (hs : EditedOk cap shape s tm) {e : Edit ρ} (hfits : e.Fits cap shape) :
    (∃ tm', EditedOk cap shape (applyEdit src cap shape s.2 s.1 e).2 tm') ∧
      (EmptinessLaw s.2 s.1 → (EmptinessLaw (applyEdit src cap shape s.2 s.1 e).2.2
        (applyEdit src cap shape s.2 s.1 e).2.1 ↔ e.drainsLone s.2 s.1 = false)) := by
  obtain ⟨tm', hedit, hok', -⟩ := TreeMap.edit_spec hsep hs.ok hfits
  obtain ⟨m', h', heq, -, hcnt, hr'⟩ := applyEdit_rep src hs.counted hs.rep hedit
  rw [heq]
  refine ⟨⟨tm', hcnt, hr', hok'⟩, fun hlaw => ?_⟩
  rw [emptinessLaw_iff hr' hok', Edit.drainsLone_eq hs.rep]
  exact TreeMap.edit_leaves hs.ok ((emptinessLaw_iff hs.rep hs.ok).mp hlaw) hedit

theorem afterEdits_append (src : Option (LeafSource ε ρ)) (edits : List (Edit ρ)) (e : Edit ρ) :
    afterEdits src cap shape (edits ++ [e]) = (applyEdit src cap shape
      (afterEdits src cap shape edits).2 (afterEdits src cap shape edits).1 e).2 := by
  simp [afterEdits]

theorem afterEdits_ok (src : Option (LeafSource ε ρ)) (hsep : SepFits cap shape)
    (edits : List (Edit ρ)) (hfits : ∀ e ∈ edits, e.Fits cap shape) :
    ∃ tm, EditedOk cap shape (afterEdits src cap shape edits) tm := by
  induction edits using List.reverseRecOn with
  | nil => exact ⟨TreeMap.new, fun _ => rfl, .new, TreeMap.new_ok⟩
  | append_singleton edits e ih =>
    obtain ⟨tm, hs⟩ := ih (fun e' he => hfits e' (List.mem_append_left _ he))
    rw [afterEdits_append]
    exact (hs.step src hsep (hfits e (by simp))).1

/-- Along a run of inserts and removes the emptiness law holds after every edit exactly when no
    remove of the run takes the last record of a leaf that is its parent's only child. -/
theorem emptiness_law_iff_no_lone_drain (src : Option (LeafSource ε ρ)) (cap : Cap)
    (shape : LeafShape) (hsep : SepFits cap shape) (edits : List (Edit ρ))
    (hfits : ∀ e ∈ edits, e.Fits cap shape) :
    (∀ k ≤ edits.length,
      let s := afterEdits src cap shape (edits.take k)
      EmptinessLaw s.2 s.1) ↔
    ∀ (k : Nat) (hk : k < edits.length),
      let s := afterEdits src cap shape (edits.take k)
      edits[k].drainsLone s.2 s.1 = false := by
  have hstep : ∀ (k : Nat) (hk : k < edits.length),
      let s := afterEdits src cap shape (edits.take k)
      let s' := afterEdits src cap shape (edits.take (k + 1))
      EmptinessLaw s.2 s.1 → (EmptinessLaw s'.2 s'.1 ↔ edits[k].drainsLone s.2 s.1 = false) := by
    intro k hk
    obtain ⟨tm, hs⟩ := afterEdits_ok src hsep (edits.take k)
      (fun e he => hfits e (List.mem_of_mem_take he))
    have htake : edits.take (k + 1) = edits.take k ++ [edits[k]] :=
      List.take_succ_eq_append_getElem hk
    dsimp only
    rw [htake, afterEdits_append]
    exact (hs.step src hsep (hfits _ (List.getElem_mem hk))).2
  constructor
  · intro hlaw k hk
    exact (hstep k hk (hlaw k (by omega))).mp (hlaw (k + 1) (by omega))
  · intro hdrain k
    induction k with
    | zero => exact fun _ => ⟨iff_of_true rfl rfl, fun nd hnd => by cases hnd⟩
    | succ k ih =>
      intro hk
      exact (hstep k (by omega) (ih (by omega))).mpr (hdrain k (by omega))

/-- A run that splits a leaf and drains the right half, which has a sibling. -/
def drainsBesideSibling : List (Edit Nat) :=
  [.insert [1] ⟨10, 100⟩, .insert [2] ⟨20, 100⟩, .insert [3] ⟨30, 100⟩, .remove [3]]

theorem emptiness_law_beside_sibling :
    let s := afterEdits (none : Option (LeafSource Unit Nat)) (Cap.plain 256) ⟨0, 0⟩ drainsBesideSibling
    EmptinessLaw s.2 s.1 :=
  (emptiness_law_iff_no_lone_drain none (Cap.plain 256) ⟨0, 0⟩ (Cap.WellFormed.sepFits (.inl rfl) _)
    drainsBesideSibling (by decide)).mpr (by decide +kernel) 4 (by decide)

/-- Five records under keys as long as the record cap allows, and the removal of the last. -/
def drainsLoneRun : List (Edit Nat) :=
  [1, 2, 3, 4, 5].map (fun k => .insert (k :: List.replicate 113 0) ⟨0, 114⟩) ++
    [.remove (5 :: List.replicate 113 0)]

/-- At page size 256 two such separators overflow their interior, which splits into one of a separator
    and one of none. The leaf below the latter drains, and stays: four rows are left, over leaves of
    two, two and no records. -/
theorem lone_drain_leaves_empty_leaf :
    (∀ e ∈ drainsLoneRun, e.Fits (Cap.plain 256) ⟨0, 0⟩) ∧
      let s := afterEdits (none : Option (LeafSource Unit Nat)) (Cap.plain 256) ⟨0, 0⟩ drainsLoneRun
      s.1.count = some 4 ∧
        (s.1.root.bind s.2.node?).map (leafLens s.2 (depthBound s.2)) = some [2, 2, 0] := by
  refine ⟨by decide, ?_⟩
  decide +kernel

end Jed.PMap
