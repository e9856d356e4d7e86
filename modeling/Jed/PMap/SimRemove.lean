import Jed.PMap.SimInsert

/-!
# The shared-node remove computes the tree-value remove

The counterpart of `Jed.PMap.SimInsert` for `nodeRemove` and the rebalance it unwinds through:
merges that take a dirty operand's vectors, merges that copy, and merges that are abandoned all
leave what the tree-value functions compute.
-/

namespace Jed.PMap

open Arc

variable {ε ρ : Type} {disk : Disk ρ} {src : Option (LeafSource ε ρ)} {cap : Cap}
  {shape : LeafShape}

/-! ## Two adjacent slots -/

/-- The references the slots other than `j` and `j + 1` hold. -/
def othersPair (cs : List Child) (j : Nat) : List Addr :=
  kidsOf (cs.take j) ++ kidsOf (cs.drop (j + 2))

section Pair

variable {cs : List Child} {j : Nat} {owned : List Addr}

theorem kidsOf_take_pair : ∀ a ∈ kidsOf (cs.take j), a ∈ othersPair cs j ++ owned :=
  fun _ ha => List.mem_append_left _ (List.mem_append_left _ ha)

theorem kidsOf_drop_pair : ∀ a ∈ kidsOf (cs.drop (j + 2)), a ∈ othersPair cs j ++ owned :=
  fun _ ha => List.mem_append_left _ (List.mem_append_right _ ha)

theorem kidsOf_openPair {l r : Child} (hl : cs[j]? = some l) (hr : cs[j + 1]? = some r) :
    (l.addr?.toList ++ (r.addr?.toList ++ (othersPair cs j ++ owned))).Perm (kidsOf cs ++ owned) := by
  conv_rhs => rw [Splice.eq_cut_pair hl hr]
  simp only [kidsOf_append, kidsOf_cons, othersPair]
  rw [← List.append_assoc l.addr?.toList, ← List.append_assoc l.addr?.toList]
  exact kids_cut_perm owned

theorem kidsOf_replacePair {t : Inner Child} (hj : j + 1 < t.children.length)
    (hk : j < t.keys.length) (ga : Grown Addr) :
    (ga.nodes ++ (othersPair t.children j ++ owned)).Perm
      (kidsOf (replacePair t j (ga.map .resident)).children ++ owned) := by
  rw [replacePair_eq hj hk]
  have hnodes : kidsOf (ga.map Child.resident).nodes = ga.nodes := by
    cases ga <;> rfl
  simp only [kidsOf_append, hnodes, List.append_assoc, othersPair]
  exact List.perm_append_comm_assoc ..

theorem InnerRel.replacePair {τ σ : Type} {S S' : τ → σ → Prop} {t : Inner τ} {u : Inner σ}
    (h : InnerRel S t u) (hj : j + 1 < t.children.length)
    (hpre : List.Forall₂ S' (t.children.take j) (u.children.take j))
    (hpost : List.Forall₂ S' (t.children.drop (j + 2)) (u.children.drop (j + 2)))
    {g : Grown τ} {g' : Grown σ} (hg : g.Rel S' g') :
    InnerRel S' (PMap.replacePair t j g) (PMap.replacePair u j g') := by
  have hj' : j + 1 < u.children.length := h.children.length_eq ▸ hj
  have hlen := h.len
  have hk : j < t.keys.length := by omega
  have hk' : j < u.keys.length := h.keys ▸ hk
  have hnodes : List.Forall₂ S' g.nodes g'.nodes := by
    match g, g', hg with
    | .whole t, .whole u, hg => exact .cons hg .nil
    | .split l s r, .split l' s' r', hg => exact .cons hg.1 (.cons hg.2.2 .nil)
  have hseps : g.seps = g'.seps ∧ g.nodes.length = g.seps.length + 1 := by
    match g, g', hg with
    | .whole t, .whole u, hg => exact ⟨rfl, rfl⟩
    | .split l s r, .split l' s' r', hg => exact ⟨by simp [Grown.seps, hg.2.1], rfl⟩
  rw [replacePair_eq hj hk, replacePair_eq hj' hk']
  refine ⟨by rw [h.keys, hseps.1], ?_, forall₂_append (forall₂_append hpre hnodes) hpost⟩
  simp only [List.length_append, List.length_take, List.length_drop, hseps.2]
  omega

end Pair

/-- What rebalancing a bare parent leaves. -/
inductive RebalancePost (disk : Disk ρ) (owned : List Addr)
    (h : Heap ε ρ) {n : Nat} (t t' : Inner (Tree ρ n)) :
    Except (Fault ε) Unit × Node ε ρ × Heap ε ρ → Prop where
  | done {h' : Heap ε ρ} {nd' : Node ε ρ} (he : Extends Node.kids owned h h')
      (hc : Counted Node.kids h' (nd'.kids ++ owned))
      (hr : InnerRel (RepSlot disk (Rep disk h' n)) nd'.inner t') :
      RebalancePost disk owned h t t' (.ok (), nd', h')
  | failed {h' : Heap ε ρ} {nd' : Node ε ρ} {e : ε} (hs : HasPages disk)
      (he : Extends Node.kids owned h h') (hc : Counted Node.kids h' (nd'.kids ++ owned))
      (hr : InnerRel (RepSlot disk (Rep disk h' n)) nd'.inner t) :
      RebalancePost disk owned h t t' (.error (.err e), nd', h')

theorem RebalancePost.after {n : Nat} {h h1 : Heap ε ρ} {t t' : Inner (Tree ρ n)}
    {owned : List Addr} {r : Except (Fault ε) Unit × Node ε ρ × Heap ε ρ}
    (hp : RebalancePost disk owned h1 t t' r) (he : Extends Node.kids owned h h1) :
    RebalancePost disk owned h t t' r := by
  cases hp with
  | done he' hc hr => exact .done (he.trans he') hc hr
  | failed hs he' hc hr => exact .failed hs (he.trans he') hc hr

section Merge

variable {n : Nat} {h : Heap ε ρ} {nd : Node ε ρ} {t : Inner (Tree ρ n)} {j : Nat}
  {lslot rslot : Child} {owned : List Addr}

/-- The built nodes take the pair's place, and the two slots' references go. -/
theorem replaceOperands_spec {S : Child → Tree ρ n → Prop} (hrel : InnerRel S nd.inner t)
    (hr : nd.children[j + 1]? = some rslot) {ga : Grown Addr} {g : Grown (Tree ρ n)}
    (hc : Counted Node.kids h (lslot.addr?.toList ++ (rslot.addr?.toList ++
      (ga.nodes ++ (othersPair nd.children j ++ owned)))))
    (hpre : List.Forall₂ (RepSlot disk (Rep disk h n)) (nd.children.take j) (t.children.take j))
    (hpost : List.Forall₂ (RepSlot disk (Rep disk h n)) (nd.children.drop (j + 2))
      (t.children.drop (j + 2)))
    (hg : ga.Rel (Rep disk h n) g) :
    RebalancePost disk owned h t (replacePair t j g)
      (replaceOperands h nd j lslot rslot ga) := by
  obtain ⟨hj, -⟩ := List.getElem?_eq_some_iff.mp hr
  have hlen := hrel.len
  have hk : j < nd.keys.length := by
    simp only [Node.inner] at hlen
    omega
  obtain ⟨hc1, he1⟩ := releaseSlot_spec hc
  obtain ⟨hc2, he2⟩ := releaseSlot_spec hc1
  have he := (he1.mono (fun b hb => List.mem_append_right _ hb)).trans he2
  have hpre' := slots_extends hpre he (fun b hb => List.mem_append_right _ (kidsOf_take_pair b hb))
  have hpost' := slots_extends hpost he (fun b hb => List.mem_append_right _ (kidsOf_drop_pair b hb))
  have hg' := hg.extends he (fun b hb => List.mem_append_left _ hb)
  unfold replaceOperands
  refine .done (he.mono (fun b hb => List.mem_append_right _ (List.mem_append_right _ hb)))
    (hc2.perm (kidsOf_replacePair (t := nd.inner) hj hk ga)) ?_
  refine hrel.replacePair hj hpre' hpost' ?_
  cases ga with
  | whole b =>
    cases g with
    | whole c => exact hg'
    | split => exact hg'.elim
  | split l s r =>
    cases g with
    | whole => exact hg'.elim
    | split => exact hg'

/-! ### Leaf operands -/

/-- The parts of a leaf operand: taken from a dirty node without other references, copied
    otherwise. -/
structure PartsOk (h : Heap ε ρ) (slot : Child) (a : Addr) (nd : Node ε ρ) (es : Leaf ρ)
    (parts : Option (Leaf ρ)) : Prop where
  copy : ∀ es', parts = some es' → es' = es
  take : parts = none → nd.page.page = 0 ∧ slot = .resident a ∧ h.isUnique a

variable {ln : Node ε ρ} {slot : Child} {a : Addr} {es : Leaf ρ}

theorem leafParts_spec (hleaf : ln.IsLeafOf es) (hop : ∀ b ∈ slot.addr?, b = a) :
    ∃ parts, leafParts h slot ln = .ok parts ∧ PartsOk h slot a ln es parts := by
  have hcopy : PartsOk h slot a ln es (some es) :=
    ⟨fun _ heq => (Option.some.inj heq).symm, fun heq => by cases heq⟩
  unfold leafParts
  cases slot with
  | onDisk p => exact ⟨some es, by simp only [hleaf.decodedParts]; rfl, hcopy⟩
  | resident b =>
    obtain rfl := hop b rfl
    dsimp only
    split
    · rename_i hu
      simp only [Bool.and_eq_true, beq_iff_eq] at hu
      exact ⟨none, rfl, ⟨fun _ heq => (by cases heq), fun _ => ⟨hu.1, rfl, hu.2⟩⟩⟩
    · exact ⟨some es, by simp only [hleaf.decodedParts]; rfl, hcopy⟩

/-- Taking the vectors of an operand leaves every other cell alone. -/
theorem intoParts_spec {parts : Option (Leaf ρ)} (hp : PartsOk h slot a ln es parts)
    (hn : parts = none → h.node? a = some ln)
    (hleaf : ln.IsLeafOf es) (hc : Counted Node.kids h (slot.addr?.toList ++ owned)) :
    (intoParts h a ln parts).1 = es ∧
      Counted Node.kids (intoParts h a ln parts).2 (slot.addr?.toList ++ owned) ∧
      Extends Node.kids owned h (intoParts h a ln parts).2 ∧
      ∀ b, b ≠ a ∨ parts ≠ none → (intoParts h a ln parts).2.cell b = h.cell b := by
  cases parts with
  | some es' =>
    obtain rfl := hp.copy es' rfl
    exact ⟨rfl, hc, .refl _ _, fun _ _ => rfl⟩
  | none =>
    obtain ⟨hd, rfl, hu⟩ := hp.take rfl
    have hn := hn rfl
    obtain ⟨hout, -, hback⟩ := borrow_spec (show Counted Node.kids h (a :: owned) from hc) hn hu
    rw [hleaf.kids] at hout
    obtain ⟨h1, h2, -, -⟩ := hback (h.checkOut a) ln.emptied owned (by simpa using hout) (.refl _ _)
    refine ⟨hleaf.zip (hleaf.dirty hd), h1, h2, fun b hb => ?_⟩
    obtain ⟨c, hcell, -⟩ := node?_eq_some.mp hn
    have hlt := Store.lt_of_cell hcell
    have hne : b ≠ a := by simpa using hb
    simp [intoParts, Store.checkIn, Store.checkOut, Store.cell_put, hlt, hne]

variable {rn : Node ε ρ} {les res : Leaf ρ}

/-- The pre-check measures the separator the builder would hand up. -/
theorem leafMergeAbandoned_eq (hl : ln.IsLeafOf les) (hr : rn.IsLeafOf res) (keys : List Bytes) :
    leafMergeAbandoned cap shape keys j ln rn =
      overflowsParent cap keys j (buildLeaf (les ++ res) cap shape none) := by
  unfold leafMergeAbandoned buildLeaf
  rw [hl.weights, hr.weights, hl.len, hl.keyAt, hr.keyAt, ← List.map_append]
  cases hm : leafSplitPoint ((les ++ res).map (·.2.weight)) cap shape none with
  | none => rfl
  | some m =>
    obtain ⟨-, hmn⟩ := leafSplitPoint_mem hm
    rw [List.length_map] at hmn
    dsimp only
    rw [List.drop_eq_getElem_cons hmn]
    dsimp only [overflowsParent]
    have hkey : (if m < les.length then ((les.map Prod.fst).getD m []).length
        else ((res.map Prod.fst).getD (m - les.length) []).length) = (les ++ res)[m].1.length := by
      split
      · rename_i hlt
        simp [List.getElem_append_left hlt, hlt]
      · rename_i hge
        have hlt : m - les.length < res.length := by
          rw [List.length_append] at hmn
          omega
        simp [List.getElem_append_right (Nat.not_lt.mp hge), hlt]
    rw [hkey]

theorem mergeLeaves_spec {t : Inner (Tree ρ 0)}
    (hl : nd.children[j]? = some lslot) (hr : nd.children[j + 1]? = some rslot)
    {l r : Addr} (hnl : h.node? l = some ln)
    (hnr : h.node? r = some rn) (hleafl : ln.IsLeafOf les) (hleafr : rn.IsLeafOf res)
    (hopl : ∀ b ∈ lslot.addr?, b = l) (hopr : ∀ b ∈ rslot.addr?, b = r)
    (hslots : InnerRel (RepSlot disk (Rep disk h 0)) nd.inner t)
    (hc : Counted Node.kids h (nd.kids ++ owned)) :
    RebalancePost disk owned h t
      (if overflowsParent cap t.keys j (buildLeaf (les ++ res) cap shape none) then t
        else replacePair t j (buildLeaf (les ++ res) cap shape none))
      (mergeLeaves cap shape h nd j lslot rslot l r ln rn) := by
  have hkeys : nd.keys = t.keys := hslots.keys
  unfold mergeLeaves
  rw [leafMergeAbandoned_eq hleafl hleafr, hkeys]
  split
  · exact .done (.refl _ _) hc hslots
  · obtain ⟨lparts, hlp, hlok⟩ := leafParts_spec (h := h) hleafl hopl
    obtain ⟨rparts, hrp, hrok⟩ := leafParts_spec (h := h) hleafr hopr
    rw [hlp, hrp]
    dsimp only
    have hopen := hc.perm (kidsOf_openPair hl hr).symm
    obtain ⟨hes, hc1, he1, hcells⟩ := intoParts_spec hlok (fun _ => hnl) hleafl hopen
    generalize hone : intoParts h l ln lparts = one at hes hc1 he1 hcells
    obtain ⟨les', h1⟩ := one
    obtain rfl : les' = les := hes
    -- a right operand whose vectors are taken is not the left one: two slots would hold it
    have hne : rparts = none → r ≠ l ∨ lparts ≠ none := by
      intro hnone
      obtain ⟨-, rfl, hu⟩ := hrok.take hnone
      by_contra hcon
      simp only [not_or, not_not] at hcon
      obtain ⟨rfl, hln⟩ := hcon
      obtain ⟨-, rfl, -⟩ := hlok.take hln
      have hcount := hopen r
      have hone : h.strong r = 1 := by simpa [Store.isUnique] using hu
      simp only [Child.addr?, Option.toList_some, List.singleton_append, List.count_cons_self] at hcount
      omega
    have hcell : rparts = none → h1.cell r = h.cell r := fun hnone => hcells r (hne hnone)
    have hrok1 : PartsOk h1 rslot r rn res rparts := by
      refine ⟨hrok.copy, fun hnone => ?_⟩
      obtain ⟨hd, hs, hu⟩ := hrok.take hnone
      refine ⟨hd, hs, ?_⟩
      unfold Store.isUnique Store.strong at hu ⊢
      rwa [hcell hnone]
    obtain ⟨hes2, hc2, he2, -⟩ := intoParts_spec hrok1
      (fun hnone => by unfold Store.node?; rw [hcell hnone]; exact hnr) hleafr
      (hc1.perm (List.perm_append_comm_assoc ..))
    generalize htwo : intoParts h1 r rn rparts = two at hes2 hc2 he2
    obtain ⟨res', h2⟩ := two
    obtain rfl : res' = res := hes2
    obtain ⟨hc3, he3, hr3⟩ := allocLeaves_spec disk h2 (buildLeaf (les' ++ res') cap shape none) hc2
    have he12 : Extends Node.kids (othersPair nd.children j ++ owned) h h2 :=
      (he1.mono (fun b hb => List.mem_append_right _ hb)).trans
        (he2.mono (fun b hb => List.mem_append_right _ hb))
    have he13 := he12.trans (he3 (othersPair nd.children j ++ owned))
    have hpre := slots_extends (List.forall₂_take j hslots.children) he13 kidsOf_take_pair
    have hpost := slots_extends (List.forall₂_drop (j + 2) hslots.children) he13 kidsOf_drop_pair
    refine (replaceOperands_spec hslots hr (hc3.perm ?_) hpre hpost hr3).after
      (he13.mono (fun b hb => List.mem_append_right _ hb))
    -- the built nodes in front of the two slots, or behind them
    refine List.perm_append_comm_assoc .. |>.trans ?_
    refine (List.perm_append_comm_assoc .. |>.append_left _).trans ?_
    exact List.perm_append_comm_assoc ..

/-! ### Interior operands -/

theorem overflowsParent_rel {τ σ : Type} {S : τ → σ → Prop} {g : Grown τ} {g' : Grown σ}
    (hg : g.Rel S g') (keys : List Bytes) :
    overflowsParent cap keys j g = overflowsParent cap keys j g' := by
  match g, g', hg with
  | .whole _, .whole _, _ => rfl
  | .split _ s _, .split _ s' _, hg => simp only [overflowsParent, hg.2.1]

/-- What `merge_at` makes of the pair it merged. -/
def mergeResult {τ : Type} (cap : Cap) (t : Inner τ) (j : Nat) : Option (Grown τ) → Inner τ
  | none => t
  | some g => if overflowsParent cap t.keys j g then t else replacePair t j g

theorem mergeInteriors_spec {t : Inner (Tree ρ (n + 1))} {l r : Addr}
    {lt rt : Inner (Tree ρ n)} {sep : Bytes} (hl : nd.children[j]? = some (.resident l))
    (hr : nd.children[j + 1]? = some (.resident r)) (hnl : h.node? l = some ln)
    (hnr : h.node? r = some rn) (hrl : InnerRel (RepSlot disk (Rep disk h n)) ln.inner lt)
    (hrr : InnerRel (RepSlot disk (Rep disk h n)) rn.inner rt)
    (hslots : InnerRel (RepSlot disk (Rep disk h (n + 1))) nd.inner t)
    (hc : Counted Node.kids h (nd.kids ++ owned)) :
    RebalancePost disk owned h t
      (mergeResult cap t j (buildInterior ⟨lt.keys ++ sep :: rt.keys, lt.children ++ rt.children⟩ cap none))
      (mergeInteriors cap h nd j (.resident l) (.resident r) ln rn sep) := by
  have hkeys : nd.keys = t.keys := hslots.keys
  have hlive : ∀ b ∈ ln.kids ++ rn.kids, ∃ c, h.cell b = some c := by
    intro b hb
    rcases List.mem_append.mp hb with hb | hb
    · obtain ⟨c, hcell, -⟩ := hc.kid_live hnl hb
      exact ⟨c, hcell⟩
    · obtain ⟨c, hcell, -⟩ := hc.kid_live hnr hb
      exact ⟨c, hcell⟩
  obtain ⟨hc1, he1⟩ := cloneAll_spec hc hlive
  unfold mergeInteriors
  dsimp only
  generalize h.cloneAll (ln.kids ++ rn.kids) = h1 at hc1 he1
  have hmerged : InnerRel (RepSlot disk (Rep disk h1 n))
      ⟨ln.keys ++ sep :: rn.keys, ln.children ++ rn.children⟩
      ⟨lt.keys ++ sep :: rt.keys, lt.children ++ rt.children⟩ := by
    have hl1 := hrl.extends (he1 ln.kids) (fun b hb => hb)
    have hr1 := hrr.extends (he1 rn.kids) (fun b hb => hb)
    have hlenl := hl1.len
    have hlenr := hr1.len
    have hkl : ln.keys = lt.keys := hl1.keys
    have hkr : rn.keys = rt.keys := hr1.keys
    simp only [Node.inner] at hlenl hlenr
    refine ⟨by simp only [hkl, hkr], ?_, forall₂_append hl1.children hr1.children⟩
    simp only [List.length_append, List.length_cons]
    omega
  have hslots1 := hslots.extends (he1 nd.kids) (fun b hb => hb)
  have hbuild := buildInterior_rel hmerged cap none
  generalize hgc : buildInterior ⟨ln.keys ++ sep :: rn.keys, ln.children ++ rn.children⟩ cap none = gc
    at hbuild ⊢
  generalize hres : mergeResult cap t j (buildInterior ⟨lt.keys ++ sep :: rt.keys,
    lt.children ++ rt.children⟩ cap none) = res
  generalize buildInterior ⟨lt.keys ++ sep :: rt.keys, lt.children ++ rt.children⟩ cap none = gt
    at hbuild hres
  cases hbuild with
  | none =>
    obtain rfl : t = res := hres
    obtain ⟨hc2, he2⟩ := dropAll_spec h1 _ hc1
    exact .done ((he1 owned).trans (he2.mono (fun b hb => List.mem_append_right _ hb))) hc2
      (hslots1.extends he2 (fun b hb => List.mem_append_left _ hb))
  | @some gc gt hrg =>
    have hkidsg := buildInterior_kids hgc
    have hcg : Counted Node.kids h1
        (gc.nodes.flatMap (fun t => kidsOf t.children) ++ (nd.kids ++ owned)) := by
      rw [hkidsg]
      simpa [Node.kids_eq] using hc1
    obtain ⟨hc2, he2, hr2⟩ := allocInteriors_spec hrg hcg
    have he12 := fun live => (he1 live).trans (he2 live)
    dsimp only
    rw [hkeys, overflowsParent_rel hrg]
    by_cases hover : overflowsParent cap t.keys j gt = true
    · rw [if_pos hover]
      obtain rfl : t = res := (if_pos hover).symm.trans hres
      obtain ⟨hc3, he3⟩ := dropAll_spec _ _ hc2
      exact .done ((he12 owned).trans (he3.mono (fun b hb => List.mem_append_right _ hb))) hc3
        ((hslots1.extends (he2 nd.kids) (fun b hb => hb)).extends he3
          (fun b hb => List.mem_append_left _ hb))
    · rw [if_neg hover]
      obtain rfl : replacePair t j gt = res := (if_neg hover).symm.trans hres
      have hslots2 := hslots.extends (he12 nd.kids) (fun b hb => hb)
      refine (replaceOperands_spec hslots2 hr ?_ (List.forall₂_take j hslots2.children)
        (List.forall₂_drop (j + 2) hslots2.children) hr2).after (he12 owned)
      refine hc2.perm ?_
      refine ((kidsOf_openPair hl hr).symm.append_left _).trans ?_
      refine List.perm_append_comm_assoc .. |>.trans ?_
      exact List.perm_append_comm_assoc .. |>.append_left _

end Merge

/-! ## Rebalancing -/

variable {a : Addr}

/-- The node behind a reference that represents a tree has the tree's kind and payload. -/
theorem Rep.payload {n : Nat} {h : Heap ε ρ} {t : Tree ρ n} {nd : Node ε ρ}
    (hr : Rep disk h n a t) (hn : h.node? a = some nd) :
    nd.payload cap shape = PMap.payload cap shape n t := by
  cases n with
  | zero =>
    obtain ⟨nd', hn', hleaf⟩ := hr
    obtain rfl : nd = nd' := Option.some.inj (hn.symm.trans hn')
    exact hleaf.payload cap shape
  | succ n =>
    obtain ⟨nd', hn', hrel⟩ := hr
    obtain rfl : nd = nd' := Option.some.inj (hn.symm.trans hn')
    have hlen := hrel.len
    have hkeys : nd.keys = t.keys := hrel.keys
    unfold Node.payload
    rw [if_neg (fun hl => by
      simp only [Node.isLeaf, List.isEmpty_iff] at hl
      simp [Node.inner, hl] at hlen), hkeys]
    rfl

theorem InnerRel.not_isLeaf {n : Nat} {S : Child → Tree ρ n → Prop} {nd : Node ε ρ}
    {t : Inner (Tree ρ n)} (h : InnerRel S nd.inner t) : nd.isLeaf = false := by
  have := h.len
  unfold Node.isLeaf
  cases hch : nd.children with
  | nil => simp [Node.inner, hch] at this
  | cons => rfl

/-- A merge operand, resident or faulted in: the operand's reference, what it represents, and the
    temporary the merge owns. -/
theorem faultSlot_spec (hsrc : SourceOk disk src) {n : Nat} {h : Heap ε ρ} {slot : Child}
    {c : Tree ρ n} {owned : List Addr} (hc : Counted Node.kids h owned)
    (hr : RepSlot disk (Rep disk h n) slot c) (hheld : ∀ b ∈ slot.addr?, b ∈ owned) :
    (∃ loaded h', faultSlot src h slot = (.ok loaded, h') ∧
        Counted Node.kids h' (loaded.toList ++ owned) ∧ (∀ live, Extends Node.kids live h h') ∧
        ∃ a, slot.addr?.or loaded = some a ∧ (∀ b ∈ slot.addr?, b = a) ∧ a ∈ loaded.toList ++ owned ∧
          Rep disk h' n a c) ∨
      ∃ e, faultSlot src h slot = (.error (.err e), h) ∧ HasPages disk := by
  cases slot with
  | resident b =>
    refine .inl ⟨none, h, rfl, hc, fun _ => .refl _ _, b, rfl, fun b' hb' => ?_, hheld b rfl, hr⟩
    exact (Option.some.inj hb').symm
  | onDisk p =>
    cases n with
    | succ n => exact hr.elim
    | zero =>
      simp only [faultSlot]
      rcases loadLeaf_spec hsrc hc hr with ⟨a, h', heq, hc', he', hr'⟩ | ⟨e, heq, hs⟩
      · rw [heq]
        refine .inl ⟨some a, h', rfl, hc', he', a, rfl, fun b hb => ?_, List.mem_cons_self, hr'⟩
        cases hb
      · rw [heq]
        exact .inr ⟨e, rfl, hs⟩

theorem mergeAt_eq {n : Nat} {t t' : Inner (Tree ρ n)} {j : Nat} (h : mergeAt cap shape n t j = some t') :
    ∃ l r sep, t.children[j]? = some l ∧ t.children[j + 1]? = some r ∧ t.keys[j]? = some sep ∧
      t' = mergeResult cap t j (mergedPair cap shape n l sep r) := by
  simp only [mergeAt, Option.bind_eq_bind, Option.bind_eq_some_iff] at h
  obtain ⟨l, hl, r, hr, sep, hs, h⟩ := h
  refine ⟨l, r, sep, hl, hr, hs, ?_⟩
  unfold mergeResult
  cases hm : mergedPair cap shape n l sep r with
  | none =>
    rw [hm] at h
    exact (Option.some.inj h).symm
  | some g =>
    rw [hm] at h
    exact (Option.some.inj h).symm

theorem Heap.mergeAt_spec (hsrc : SourceOk disk src) {n : Nat} {h : Heap ε ρ} {nd : Node ε ρ}
    {t t' : Inner (Tree ρ n)} {j : Nat} {owned : List Addr}
    (hslots : InnerRel (RepSlot disk (Rep disk h n)) nd.inner t)
    (hc : Counted Node.kids h (nd.kids ++ owned)) (hm : PMap.mergeAt cap shape n t j = some t') :
    RebalancePost disk owned h t t' (Heap.mergeAt src cap shape h nd j) := by
  obtain ⟨lt, rt, sep, hlt, hrt, hsep, rfl⟩ := mergeAt_eq hm
  obtain ⟨lslot, hl, hrl, -, -⟩ := forall₂_cut hslots.children hlt
  obtain ⟨rslot, hr, hrr, -, -⟩ := forall₂_cut hslots.children hrt
  have hkey : nd.keys[j]? = some sep := by
    rw [show nd.keys = t.keys from hslots.keys]
    exact hsep
  have hheld : ∀ {i : Nat} {slot : Child}, nd.children[i]? = some slot →
      ∀ b ∈ slot.addr?, b ∈ nd.kids ++ owned := fun hi b hb =>
    List.mem_append_left _ (List.mem_filterMap.mpr ⟨_, List.mem_of_getElem? hi, hb⟩)
  unfold Heap.mergeAt
  rw [show nd.children[j]? = some lslot from hl, show nd.children[j + 1]? = some rslot from hr, hkey]
  dsimp only
  rcases faultSlot_spec hsrc hc hrl (hheld hl) with
    ⟨lload, h1, heq, hc1, he1, l, hlop, hlonly, hlheld, hlrep⟩ | ⟨e, heq, hs⟩
  · rw [heq]
    dsimp only
    have hrr1 := hrr.extends (he1 (nd.kids ++ owned)) (hheld hr)
    rcases faultSlot_spec hsrc hc1 hrr1 (fun b hb => List.mem_append_right _ (hheld hr b hb)) with
      ⟨rload, h2, heq2, hc2, he2, r, hrop, hronly, hrheld, hrrep⟩ | ⟨e, heq2, hs⟩
    · rw [heq2]
      dsimp only
      rw [hlop, hrop]
      dsimp only
      have he12 := fun live => (he1 live).trans (he2 live)
      have hlrep2 := Rep.extends hlrep (he2 [l]) List.mem_cons_self
      have hslots2 := hslots.extends (he12 nd.kids) (fun b hb => hb)
      have hperm : (rload.toList ++ (lload.toList ++ (nd.kids ++ owned))).Perm
          (nd.kids ++ ((lload.toList ++ rload.toList) ++ owned)) := by
        rw [← List.append_assoc, ← List.append_assoc, List.append_assoc]
        refine (List.perm_append_comm.append_right _).trans ?_
        rw [← List.append_assoc, ← List.append_assoc nd.kids]
        exact List.perm_append_comm.append_right _
      have hc2' := hc2.perm hperm
      have hmerge : ∃ ln rn, h2.node? l = some ln ∧ h2.node? r = some rn ∧
          RebalancePost disk ((lload.toList ++ rload.toList) ++ owned) h2 t
            (mergeResult cap t j (mergedPair cap shape n lt sep rt))
            (if ln.isLeaf then mergeLeaves cap shape h2 nd j lslot rslot l r ln rn
              else mergeInteriors cap h2 nd j lslot rslot ln rn sep) := by
        cases n with
        | zero =>
          obtain ⟨ln, hnl, hleafl⟩ := hlrep2
          obtain ⟨rn, hnr, hleafr⟩ := hrrep
          refine ⟨ln, rn, hnl, hnr, ?_⟩
          rw [if_pos hleafl.isLeaf]
          exact mergeLeaves_spec hl hr hnl hnr hleafl hleafr hlonly hronly hslots2 hc2'
        | succ n =>
          obtain ⟨ln, hnl, hrell⟩ := hlrep2
          obtain ⟨rn, hnr, hrelr⟩ := hrrep
          refine ⟨ln, rn, hnl, hnr, ?_⟩
          rw [if_neg (by rw [hrell.not_isLeaf]; exact Bool.false_ne_true)]
          cases lslot with
          | onDisk p => exact hrl.elim
          | resident l' =>
            cases rslot with
            | onDisk p => exact hrr.elim
            | resident r' =>
              obtain rfl := hlonly l' rfl
              obtain rfl := hronly r' rfl
              exact mergeInteriors_spec hl hr hnl hnr hrell hrelr hslots2 hc2'
      obtain ⟨ln, rn, hnl, hnr, hpost⟩ := hmerge
      rw [hnl, hnr]
      dsimp only
      revert hpost
      generalize (if ln.isLeaf then mergeLeaves cap shape h2 nd j lslot rslot l r ln rn
              else mergeInteriors cap h2 nd j lslot rslot ln rn sep) = res
      intro hpost
      have hload : ∀ {nd' : Node ε ρ} {h' : Heap ε ρ},
          Counted Node.kids h' (nd'.kids ++ ((lload.toList ++ rload.toList) ++ owned)) →
          Counted Node.kids (h'.dropAll Node.kids (lload.toList ++ rload.toList)) (nd'.kids ++ owned) ∧
            Extends Node.kids (nd'.kids ++ owned) h'
              (h'.dropAll Node.kids (lload.toList ++ rload.toList)) :=
        fun hc' => dropAll_spec _ _ (hc'.perm (List.perm_append_comm_assoc ..))
      cases hpost with
      | done he hc' hr' =>
        obtain ⟨h3, h4⟩ := hload hc'
        refine .done (((he12 owned).trans (he.mono (fun b hb => List.mem_append_right _ hb))).trans
          (h4.mono (fun b hb => List.mem_append_right _ hb))) h3
          (hr'.extends h4 (fun b hb => List.mem_append_left _ hb))
      | failed hs he hc' hr' =>
        obtain ⟨h3, h4⟩ := hload hc'
        refine .failed hs (((he12 owned).trans (he.mono (fun b hb => List.mem_append_right _ hb))).trans
          (h4.mono (fun b hb => List.mem_append_right _ hb))) h3
          (hr'.extends h4 (fun b hb => List.mem_append_left _ hb))
    · rw [heq2]
      dsimp only
      obtain ⟨h3, h4⟩ := dropAll_spec _ _ hc1
      exact .failed hs ((he1 owned).trans (h4.mono (fun b hb => List.mem_append_right _ hb))) h3
        ((hslots.extends (he1 nd.kids) (fun b hb => hb)).extends h4
          (fun b hb => List.mem_append_left _ hb))
  · rw [heq]
    exact .failed hs (.refl _ _) hc hslots

theorem Heap.rebalanceChild_spec (hsrc : SourceOk disk src) {n : Nat} {h : Heap ε ρ} {nd : Node ε ρ}
    {t t' : Inner (Tree ρ n)} {i : Nat} {owned : List Addr}
    (hslots : InnerRel (RepSlot disk (Rep disk h n)) nd.inner t)
    (hres : nd.children[i]? = some (.resident a)) (hc : Counted Node.kids h (nd.kids ++ owned))
    (hm : PMap.rebalanceChild cap shape n t i = some t') :
    RebalancePost disk owned h t t' (Heap.rebalanceChild src cap shape h nd i) := by
  simp only [PMap.rebalanceChild, Option.bind_eq_bind, Option.bind_eq_some_iff] at hm
  obtain ⟨ct, hct, hm⟩ := hm
  obtain ⟨slot, hslot, hr, -, -⟩ := forall₂_cut hslots.children hct
  obtain rfl : Child.resident a = slot := Option.some.inj (hres.symm.trans hslot)
  obtain ⟨cn, hn⟩ : ∃ cn, h.node? a = some cn := by
    cases n with
    | zero =>
      obtain ⟨cn, hn, -⟩ := hr
      exact ⟨cn, hn⟩
    | succ n =>
      obtain ⟨cn, hn, -⟩ := hr
      exact ⟨cn, hn⟩
  have hpay : cn.payload cap shape = payload cap shape n ct := Rep.payload hr hn
  have hlen : nd.children.length = t.children.length := hslots.children.length_eq
  unfold Heap.rebalanceChild
  simp only [hres, Option.bind_some, Child.addr?, hn, hpay, hlen]
  unfold underfull at hm
  split at hm
  · rename_i hu
    rw [if_pos hu]
    obtain rfl := Option.some.inj hm
    exact .done (.refl _ _) hc hslots
  · rename_i hu
    rw [if_neg hu]
    split at hm
    · rename_i hone
      rw [if_pos hone]
      obtain rfl := Option.some.inj hm
      exact .done (.refl _ _) hc hslots
    · rename_i hone
      rw [if_neg hone]
      exact Heap.mergeAt_spec hsrc hslots hc hm

/-! ## The descent -/

variable {key : Bytes}

/-- A remove that finds nothing changes nothing. -/
theorem removeTree_absent {n : Nat} {t t' : Tree ρ n}
    (h : removeTree cap shape n t key = some (none, t')) : t' = t := by
  cases n with
  | zero =>
    simp only [removeTree] at h
    split at h
    · exact (Prod.ext_iff.mp (Option.some.inj h)).2.symm
    · rename_i i hi
      have hrow := Option.map_eq_none_iff.mp (Prod.ext_iff.mp (Option.some.inj h)).1
      have ht := (Prod.ext_iff.mp (Option.some.inj h)).2
      dsimp only at ht
      rw [← ht]
      exact List.eraseIdx_of_length_le (List.getElem?_eq_none_iff.mp hrow)
  | succ n =>
    simp only [removeTree, Option.bind_eq_bind, Option.bind_eq_some_iff] at h
    obtain ⟨c, -, ⟨row, c'⟩, -, h⟩ := h
    cases row with
    | none => exact (Prod.ext_iff.mp (Option.some.inj h)).2.symm
    | some row =>
      simp only [Option.bind_eq_some_iff] at h
      obtain ⟨t'', -, h⟩ := h
      exact absurd (Prod.ext_iff.mp (Option.some.inj h)).1 (by simp)

theorem removeTree_interior {n : Nat} {t : Inner (Tree ρ n)} {t' : Tree ρ (n + 1)}
    {row : Option ρ} (h : removeTree cap shape (n + 1) t key = some (row, t')) :
    ∃ c c', t.children[childSlot t.keys key]? = some c ∧
      removeTree cap shape n c key = some (row, c') ∧
      (row = none → t' = t) ∧
      (row.isSome → rebalanceChild cap shape n (t.setChild (childSlot t.keys key) c')
        (childSlot t.keys key) = some t') := by
  simp only [removeTree, Option.bind_eq_bind, Option.bind_eq_some_iff] at h
  obtain ⟨c, hc, ⟨row', c'⟩, hrem, h⟩ := h
  cases row' with
  | none =>
    obtain ⟨rfl, rfl⟩ := Prod.ext_iff.mp (Option.some.inj h)
    exact ⟨c, c', hc, hrem, fun _ => rfl, fun hs => (by cases hs)⟩
  | some r =>
    simp only [Option.bind_eq_some_iff] at h
    obtain ⟨t'', ht, h⟩ := h
    obtain ⟨rfl, rfl⟩ := Prod.ext_iff.mp (Option.some.inj h)
    exact ⟨c, c', hc, hrem, fun hs => (by cases hs), fun _ => ht⟩

/-- What a remove leaves in the slot that held the subtree. A leaf a row was removed from is
    decoded. -/
inductive RemovePost (disk : Disk ρ) (owned : List Addr)
    (h : Heap ε ρ) {n : Nat} (t' : Tree ρ n) (row : Option ρ) :
    Except (Fault ε) (Option ρ) × Addr × Heap ε ρ → Prop where
  | done {h' : Heap ε ρ} {b : Addr} (he : Extends Node.kids owned h h')
      (hc : Counted Node.kids h' (b :: owned)) (hr : Rep disk h' n b t')
      (hd : row.isSome → ∀ nd, h'.node? b = some nd → nd.isLeaf → nd.packed = none) :
      RemovePost disk owned h t' row (.ok row, b, h')
  | failed {h' : Heap ε ρ} {b : Addr} {e : ε} (hs : HasPages disk) (he : Extends Node.kids owned h h')
      (hc : Counted Node.kids h' (b :: owned)) :
      RemovePost disk owned h t' row (.error (.err e), b, h')

theorem Rep.decoded {n : Nat} {h : Heap ε ρ} {b : Addr} {t : Tree ρ (n + 1)}
    (hr : Rep disk h (n + 1) b t) (row : Option ρ) :
    row.isSome → ∀ nd, h.node? b = some nd → nd.isLeaf → nd.packed = none := by
  intro _ nd hn hleaf
  obtain ⟨nd', hn', hrel⟩ := hr
  obtain rfl : nd = nd' := Option.some.inj (hn.symm.trans hn')
  rw [hrel.not_isLeaf] at hleaf
  cases hleaf

theorem removeLeaf_spec {h : Heap ε ρ} {owned : List Addr} {nd : Node ε ρ} {es : Leaf ρ}
    (hc : Counted Node.kids h (a :: owned)) (hn : h.node? a = some nd) (hleaf : nd.IsLeafOf es)
    {t' : Tree ρ 0} {row : Option ρ}
    (hrem : removeTree cap shape 0 es key = some (row, t')) :
    RemovePost disk owned h t' row (removeLeaf h a nd key) := by
  simp only [removeTree] at hrem
  unfold removeLeaf
  rw [hleaf.search]
  cases hi : searchKeys (es.map Prod.fst) key with
  | error i =>
    simp only [hi] at hrem
    obtain ⟨rfl, rfl⟩ := Prod.ext_iff.mp (Option.some.inj hrem)
    exact .done (.refl _ _) hc (Rep.leaf hn hleaf) (fun hs => by cases hs)
  | ok i =>
    simp only [hi] at hrem
    obtain ⟨rfl, rfl⟩ := Prod.ext_iff.mp (Option.some.inj hrem)
    dsimp only
    split
    · rename_i hu
      simp only [Bool.and_eq_true, beq_iff_eq] at hu
      have hpacked := hleaf.dirty hu.1
      obtain ⟨hkeys, hrecs⟩ := hleaf.decoded hpacked
      obtain ⟨hout, -, hback⟩ := borrow_spec hc hn hu.2
      rw [hleaf.kids] at hout
      obtain ⟨h1, h2, h3, -⟩ := hback (h.checkOut a)
        { nd with keys := nd.keys.eraseIdx i, recs := nd.recs.eraseIdx i } owned
        (by simpa [Node.kids, hleaf.children] using hout) (.refl _ _)
      have hrow : (nd.recs[i]?).map Rec.row = (es[i]?).map (·.2.row) := by
        rw [hrecs, List.getElem?_map, Option.map_map]
        rfl
      rw [hrow]
      refine .done h2 h1 (Rep.leaf h3 ⟨hleaf.children, fun _ => ⟨?_, ?_⟩, fun p hp => ?_⟩)
        (fun _ nd' hnd' _ => ?_)
      · simp only [hkeys, List.eraseIdx_map]
      · simp only [hrecs, List.eraseIdx_map]
      · rw [hpacked] at hp
        cases hp
      · rw [h3] at hnd'
        exact Option.some.inj hnd' ▸ hpacked
    · rw [hleaf.decodedParts]
      dsimp only
      have hc1 : Counted Node.kids (h.alloc (.leaf (es.eraseIdx i))).2 (h.cells.length :: a :: owned) :=
        Counted.alloc (by simpa using hc)
      obtain ⟨hc2, he2⟩ := release_spec (hc1.perm (.swap ..))
      have hnew : (h.alloc (.leaf (es.eraseIdx i))).2.node? h.cells.length =
          some (Node.leaf (es.eraseIdx i)) := by simp [Store.node?, Store.cell_alloc]
      refine .done ((Extends.alloc owned h _).trans
        (he2.mono (fun b hb => List.mem_cons_of_mem _ hb))) hc2 ?_ (fun _ nd' hnd' _ => ?_)
      · exact Rep.extends (Rep.leaf hnew (Node.leaf_isLeafOf _)) he2 List.mem_cons_self
      · rw [he2.keeps _ List.mem_cons_self _ _ (.refl _) hnew] at hnd'
        exact Option.some.inj hnd' ▸ rfl

section Interior

variable {go : Heap ε ρ → Addr → Except (Fault ε) (Option ρ) × Addr × Heap ε ρ} {n : Nat}
  {ct ct' : Tree ρ n} {row : Option ρ}

/-- The recursive call does its job on any reference to the child `ct`. -/
def GoRemoves (disk : Disk ρ)
    (go : Heap ε ρ → Addr → Except (Fault ε) (Option ρ) × Addr × Heap ε ρ) {n : Nat}
    (ct ct' : Tree ρ n) (row : Option ρ) : Prop :=
  ∀ h c owned, Counted Node.kids h (c :: owned) → Rep disk h n c ct →
    RemovePost disk owned h ct' row (go h c)

/-- What a removal from the child a slot holds leaves: after a row was removed the slot is
    resident. -/
inductive SlotRemovePost (disk : Disk ρ) (owned : List Addr)
    (h : Heap ε ρ) {n : Nat} (t' : Tree ρ n) (row : Option ρ) :
    Except (Fault ε) (Option ρ) × Child × Heap ε ρ → Prop where
  | done {h' : Heap ε ρ} {slot : Child} (he : Extends Node.kids owned h h')
      (hc : Counted Node.kids h' (slot.addr?.toList ++ owned))
      (hr : RepSlot disk (Rep disk h' n) slot t') (hres : row.isSome → ∃ b, slot = .resident b) :
      SlotRemovePost disk owned h t' row (.ok row, slot, h')
  | failed {h' : Heap ε ρ} {slot : Child} {e : ε} (hs : HasPages disk)
      (he : Extends Node.kids owned h h') (hc : Counted Node.kids h' (slot.addr?.toList ++ owned)) :
      SlotRemovePost disk owned h t' row (.error (.err e), slot, h')

variable {slot : Child}

theorem removeSlot_spec (hsrc : SourceOk disk src) (hgo : GoRemoves disk go ct ct' row)
    (hrow : row = none → ct' = ct) {h : Heap ε ρ} {owned : List Addr}
    (hc : Counted Node.kids h (slot.addr?.toList ++ owned))
    (hr : RepSlot disk (Rep disk h n) slot ct) :
    SlotRemovePost disk owned h ct' row (removeSlot go src h slot) := by
  cases slot with
  | resident c =>
    have hpost := hgo h c owned hc hr
    simp only [removeSlot]
    revert hpost
    generalize go h c = r
    intro hpost
    cases hpost with
    | done he hc hr _ =>
      refine .done he ?_ hr (fun _ => ⟨_, rfl⟩)
      exact hc
    | failed hs he hc =>
      refine .failed hs he ?_
      exact hc
  | onDisk p =>
    cases n with
    | succ n => exact hr.elim
    | zero =>
      simp only [removeSlot]
      rcases loadLeaf_spec hsrc hc hr with ⟨a, h', heq, hc', he', hr'⟩ | ⟨e, heq, hs⟩
      · rw [heq]
        dsimp only
        have hpost := hgo h' a owned hc' hr'
        revert hpost
        generalize go h' a = r
        intro hpost
        cases hpost with
        | done he hc2 hr2 _ =>
          cases row with
          | some row =>
            refine .done ((he' owned).trans he) ?_ hr2 (fun _ => ⟨_, rfl⟩)
            exact hc2
          | none =>
            obtain rfl := hrow rfl
            obtain ⟨hc3, he3⟩ := release_spec hc2
            exact .done (((he' owned).trans he).trans he3) hc3 hr (fun hs => by cases hs)
        | failed hs he hc2 =>
          obtain ⟨hc3, he3⟩ := release_spec hc2
          exact .failed hs (((he' owned).trans he).trans he3) hc3
      · rw [heq]
        exact .failed hs (.refl _ _) hc

/-- What a removal through a borrowed parent leaves. -/
inductive BorrowRemovePost (disk : Disk ρ) (owned : List Addr)
    (h : Heap ε ρ) {n : Nat} (t' : Inner (Tree ρ n)) (row : Option ρ) :
    Except (Fault ε) (Option ρ) × Node ε ρ × Heap ε ρ → Prop where
  | done {h' : Heap ε ρ} {nd' : Node ε ρ} (he : Extends Node.kids owned h h')
      (hc : Counted Node.kids h' (nd'.kids ++ owned))
      (hr : InnerRel (RepSlot disk (Rep disk h' n)) nd'.inner t') :
      BorrowRemovePost disk owned h t' row (.ok row, nd', h')
  | failed {h' : Heap ε ρ} {nd' : Node ε ρ} {e : ε} (hs : HasPages disk)
      (he : Extends Node.kids owned h h') (hc : Counted Node.kids h' (nd'.kids ++ owned)) :
      BorrowRemovePost disk owned h t' row (.error (.err e), nd', h')

variable {t' : Inner (Tree ρ n)} {i : Nat}

theorem removeBorrowed_spec (hsrc : SourceOk disk src) (hgo : GoRemoves disk go ct ct' row)
    (hrow : row = none → ct' = ct) {h : Heap ε ρ} {owned : List Addr} {nd : Node ε ρ}
    {t : Inner (Tree ρ n)} (hc : Counted Node.kids h (nd.kids ++ owned))
    (hrel : InnerRel (RepSlot disk (Rep disk h n)) nd.inner t) (hi : t.children[i]? = some ct)
    (hslot : nd.children[i]? = some slot) (hnone : row = none → t' = t)
    (hsome : row.isSome → rebalanceChild cap shape n (t.setChild i ct') i = some t') :
    BorrowRemovePost disk owned h t' row (removeBorrowed go src cap shape h nd i slot) := by
  obtain ⟨slot', hs', hrs, hpre, hpost⟩ := forall₂_cut hrel.children hi
  obtain rfl : slot = slot' := Option.some.inj (hslot.symm.trans hs')
  obtain ⟨hlt, -⟩ := List.getElem?_eq_some_iff.mp hslot
  have hsub := removeSlot_spec hsrc hgo hrow (hc.perm (kidsOf_open hslot owned).symm) hrs
  unfold removeBorrowed
  revert hsub
  generalize removeSlot go src h slot = r
  intro hsub
  cases hsub with
  | failed hs he hc' =>
    exact .failed hs (he.mono (fun b hb => List.mem_append_right _ hb))
      (hc'.perm (kidsOf_set hlt _ owned))
  | @done h' slot' he hc' hr hres =>
    have hnew := hrel.setChild hlt (slots_extends hpre he kidsOf_take_mem) hr
      (slots_extends hpost he kidsOf_drop_mem)
    have he' : Extends Node.kids owned h h' := he.mono (fun b hb => List.mem_append_right _ hb)
    have hcnt : Counted Node.kids h' ((nd.withInner (nd.inner.setChild i slot')).kids ++ owned) :=
      hc'.perm (kidsOf_set hlt slot' owned)
    cases row with
    | none =>
      obtain rfl := hnone rfl
      obtain rfl := hrow rfl
      rw [Inner.setChild_self hi] at hnew
      exact .done he' hcnt hnew
    | some row =>
      obtain ⟨b, rfl⟩ := hres rfl
      have hat : (nd.withInner (nd.inner.setChild i (.resident b))).children[i]? =
          some (.resident b) := by
        simp [Node.withInner, Inner.setChild, Node.inner, hlt]
      have hreb := Heap.rebalanceChild_spec hsrc hnew hat hcnt (hsome rfl)
      dsimp only
      revert hreb
      generalize Heap.rebalanceChild src cap shape h' _ i = r
      intro hreb
      cases hreb with
      | done he2 hc2 hr2 => exact .done (he'.trans he2) hc2 hr2
      | failed hs he2 hc2 hr2 => exact .failed hs (he'.trans he2) hc2

/-- What a removal below a copied parent leaves: a failed one leaves the parent as it was. -/
inductive CopyRemovePost (disk : Disk ρ) (owned : List Addr)
    (h : Heap ε ρ) {n : Nat} (a : Addr) (t' : Tree ρ n) (row : Option ρ) :
    Except (Fault ε) (Option ρ) × Addr × Heap ε ρ → Prop where
  | done {h' : Heap ε ρ} {b : Addr} (he : Extends Node.kids owned h h')
      (hc : Counted Node.kids h' (b :: owned)) (hr : Rep disk h' n b t')
      (hd : row.isSome → ∀ nd, h'.node? b = some nd → nd.isLeaf → nd.packed = none) :
      CopyRemovePost disk owned h a t' row (.ok row, b, h')
  | failed {h' : Heap ε ρ} {e : ε} (hs : HasPages disk) (he : Extends Node.kids (a :: owned) h h')
      (hc : Counted Node.kids h' (a :: owned)) :
      CopyRemovePost disk owned h a t' row (.error (.err e), a, h')

theorem removeCopied_post (hsrc : SourceOk disk src) (hgo : GoRemoves disk go ct ct' row)
    {h : Heap ε ρ} {a : Addr} {owned : List Addr} {nd : Node ε ρ}
    {t : Inner (Tree ρ n)} (hc : Counted Node.kids h (a :: owned))
    (hn : h.node? a = some nd) (hrel : InnerRel (RepSlot disk (Rep disk h n)) nd.inner t)
    (hi : t.children[i]? = some ct) (hslot : nd.children[i]? = some slot)
    (hnone : row = none → t' = t)
    (hsome : row.isSome → rebalanceChild cap shape n (t.setChild i ct') i = some t') :
    CopyRemovePost disk owned h (n := n + 1) a t' row (removeCopied go src cap shape h a nd i slot) := by
  obtain ⟨slot', hs', hrs, -, -⟩ := forall₂_cut hrel.children hi
  obtain rfl : slot = slot' := Option.some.inj (hslot.symm.trans hs')
  obtain ⟨hlt, -⟩ := List.getElem?_eq_some_iff.mp hslot
  have hlive : ∀ b ∈ slot.addr?, ∃ c, h.cell b = some c := by
    intro b hb
    have hmem : b ∈ nd.kids := List.mem_filterMap.mpr ⟨slot, List.mem_of_getElem? hslot, hb⟩
    obtain ⟨c, hcell, -⟩ := hc.kid_live hn hmem
    exact ⟨c, hcell⟩
  unfold removeCopied
  rcases child_spec hsrc hc hrs hlive with ⟨c, h1, heq, hc1, he1, hr1⟩ | ⟨e, heq, hs⟩
  · rw [heq]
    dsimp only
    have hsub := hgo h1 c (a :: owned) hc1 hr1
    revert hsub
    generalize go h1 c = r
    intro hsub
    cases hsub with
    | failed hs he2 hc2 =>
      obtain ⟨hc3, he3⟩ := release_spec hc2
      have he := ((he1 (a :: owned)).trans he2).trans he3
      exact .failed hs he hc3
    | @done h2 c' he2 hc2 hr2 _ =>
      have he := (he1 (a :: owned)).trans he2
      cases row with
      | none =>
        obtain rfl := hnone rfl
        obtain ⟨hc3, he3⟩ := release_spec hc2
        have he' := he.trans he3
        exact .done (he'.mono (fun b hb => List.mem_cons_of_mem _ hb)) hc3
          (Rep.extends (Rep.inner hn hrel) he' List.mem_cons_self) (fun hs => by cases hs)
      | some row =>
        have hn2 : h2.node? a = some nd := he.keeps a List.mem_cons_self a nd (.refl a) hn
        have hkids : ∀ b ∈ nd.kids, ∃ c, h2.cell b = some c := by
          intro b hb
          obtain ⟨c, hcell, -⟩ := hc2.kid_live hn2 hb
          exact ⟨c, hcell⟩
        obtain ⟨hc3, he3⟩ := cloneAll_spec hc2 hkids
        obtain ⟨hc4, he4⟩ := releaseSlot_spec
          (hc3.perm (kidsOf_open hslot (c' :: a :: owned)).symm)
        have he14 : Extends Node.kids (others nd.children i ++ (c' :: a :: owned)) h2
            (releaseSlot (h2.cloneAll nd.kids) slot) := (he3 _).trans he4
        have hrel2 : InnerRel (RepSlot disk (Rep disk h2 n)) nd.inner t := by
          obtain ⟨nd', hn', hrel'⟩ := Rep.extends (Rep.inner hn hrel) he List.mem_cons_self
          rw [hn2] at hn'
          obtain rfl := Option.some.inj hn'
          exact hrel'
        have hc'mem : c' ∈ others nd.children i ++ (c' :: a :: owned) :=
          List.mem_append_right _ List.mem_cons_self
        have hnew := hrel2.setChild (c := Child.resident c') hlt
          (slots_extends (List.forall₂_take i hrel2.children) he14 kidsOf_take_mem)
          (Rep.extends hr2 he14 hc'mem)
          (slots_extends (List.forall₂_drop (i + 1) hrel2.children) he14 kidsOf_drop_mem)
        have hcnt : Counted Node.kids (releaseSlot (h2.cloneAll nd.kids) slot)
            ((Node.interior (nd.inner.setChild i (.resident c')) : Node ε ρ).kids ++ a :: owned) := by
          refine (hc4.perm List.perm_middle).perm ?_
          exact kidsOf_set hlt (.resident c') (a :: owned)
        have hat : (Node.interior (nd.inner.setChild i (.resident c')) : Node ε ρ).children[i]? =
            some (.resident c') := by
          simp [Node.interior, Inner.setChild, Node.inner, hlt]
        have hext : Extends Node.kids (a :: owned) h (releaseSlot (h2.cloneAll nd.kids) slot) :=
          he.trans (he14.mono (fun b hb =>
            List.mem_append_right _ (List.mem_cons_of_mem _ hb)))
        have hreb := Heap.rebalanceChild_spec hsrc hnew hat hcnt (hsome rfl)
        dsimp only
        revert hreb
        generalize Heap.rebalanceChild src cap shape (releaseSlot (h2.cloneAll nd.kids) slot) _ i = r
        intro hreb
        cases hreb with
        | failed hs he5 hc5 hr5 =>
          obtain ⟨hc6, he6⟩ := dropAll_spec _ _ hc5
          exact .failed hs ((hext.trans he5).trans he6) hc6
        | @done h5 rebuilt he5 hc5 hr5 =>
          have hc6 : Counted Node.kids (h5.alloc rebuilt).2 (h5.cells.length :: a :: owned) :=
            Counted.alloc hc5
          obtain ⟨hc7, he7⟩ := release_spec (hc6.perm (.swap ..))
          have hx := ((hext.trans he5).trans (Extends.alloc _ h5 rebuilt)).mono
            (fun b hb => List.mem_cons_of_mem a hb)
          have hnode : (h5.alloc rebuilt).2.node? h5.cells.length = some rebuilt := by
            simp [Store.node?, Store.cell_alloc]
          have hrep : Rep disk (release (h5.alloc rebuilt).2 a) (n + 1) h5.cells.length t' := by
            refine Rep.extends ?_ he7 List.mem_cons_self
            exact Rep.inner hnode (hr5.extends (Extends.alloc rebuilt.kids h5 rebuilt) (fun b hb => hb))
          exact .done (hx.trans (he7.mono (fun b hb => List.mem_cons_of_mem _ hb))) hc7 hrep
            (hrep.decoded (some row))
  · rw [heq]
    exact .failed hs (.refl _ _) hc

theorem removeCopied_spec (hsrc : SourceOk disk src) (hgo : GoRemoves disk go ct ct' row)
    {h : Heap ε ρ} {a : Addr} {owned : List Addr} {nd : Node ε ρ}
    {t : Inner (Tree ρ n)} (hc : Counted Node.kids h (a :: owned))
    (hn : h.node? a = some nd) (hrel : InnerRel (RepSlot disk (Rep disk h n)) nd.inner t)
    (hi : t.children[i]? = some ct) (hslot : nd.children[i]? = some slot)
    (hnone : row = none → t' = t)
    (hsome : row.isSome → rebalanceChild cap shape n (t.setChild i ct') i = some t') :
    RemovePost disk owned h (n := n + 1) t' row (removeCopied go src cap shape h a nd i slot) := by
  have hpost := removeCopied_post hsrc hgo hc hn hrel hi hslot hnone hsome
  revert hpost
  generalize removeCopied go src cap shape h a nd i slot = r
  intro hpost
  cases hpost with
  | done he hc' hr hd => exact .done he hc' hr hd
  | failed hs he hc' => exact .failed hs (he.mono fun b hb => List.mem_cons_of_mem _ hb) hc'

end Interior

/-- `nodeRemove` computes `removeTree`, by induction on the height of the tree. -/
theorem nodeRemove_spec (hsrc : SourceOk disk src) {n : Nat} :
    ∀ {t t' : Tree ρ n} {row : Option ρ} {fuel : Nat} {h : Heap ε ρ} {a : Addr}
      {owned : List Addr}, n < fuel → Counted Node.kids h (a :: owned) → Rep disk h n a t →
      removeTree cap shape n t key = some (row, t') →
      RemovePost disk owned h t' row (nodeRemove src cap shape key fuel h a) := by
  induction n with
  | zero =>
    rintro t t' row fuel h a owned hfuel hc ⟨nd, hn, hleaf⟩ hrem
    obtain ⟨fuel, rfl⟩ : ∃ k, fuel = k + 1 := ⟨fuel - 1, by omega⟩
    simp only [nodeRemove, hn, hleaf.isLeaf, if_true]
    exact removeLeaf_spec hc hn hleaf hrem
  | succ n ih =>
    rintro t t' row fuel h a owned hfuel hc ⟨nd, hn, hrel⟩ hrem
    obtain ⟨fuel, rfl⟩ : ∃ k, fuel = k + 1 := ⟨fuel - 1, by omega⟩
    obtain ⟨ct, ct', hi, hsub, hnone, hsome⟩ := removeTree_interior hrem
    have hgo : GoRemoves disk (nodeRemove src cap shape key fuel) ct ct' row :=
      fun h c owned hc hr => ih (by omega) hc hr hsub
    have hkeys : nd.keys = t.keys := hrel.keys
    rw [← hkeys] at hi hsome
    obtain ⟨slot, hslot, -, -, -⟩ := forall₂_cut hrel.children hi
    simp only [nodeRemove, hn, hrel.not_isLeaf, Bool.false_eq_true, if_false,
      show nd.children[childSlot nd.keys key]? = some slot from hslot]
    split
    · rename_i hu
      simp only [Bool.and_eq_true, beq_iff_eq] at hu
      obtain ⟨hout, heout, hback⟩ := borrow_spec hc hn hu.2
      have hrel' := hrel.extends heout (fun b hb => List.mem_append_left _ hb)
      have hpost := removeBorrowed_spec hsrc hgo
        (fun hr => removeTree_absent (hr ▸ hsub)) hout hrel' hi hslot hnone hsome
      revert hpost
      generalize removeBorrowed _ src cap shape (h.checkOut a) nd _ slot = r
      intro hpost
      cases hpost with
      | done he hc' hr =>
        obtain ⟨h1, h2, h3, h4⟩ := hback _ _ _ hc' he
        have hrep := Rep.inner h3 (hr.keep h4)
        exact .done h2 h1 hrep (hrep.decoded row)
      | failed hs he hc' =>
        obtain ⟨h1, h2, -, -⟩ := hback _ _ _ hc' he
        exact .failed hs h2 h1
    · exact removeCopied_spec hsrc hgo hc hn hrel hi hslot hnone hsome

end Jed.PMap
