import Jed.PMap.Ownership
import Jed.PMap.Traversals

/-!
# Removes that fail

A remove erases the row before the leaf it came from is merged, and the merge may have to load the
leaf's sibling. Below a parent that is edited in place the row is gone when that load fails, and the
row count is not lowered. Nowhere else does a failed edit change what a map holds.
-/

namespace Jed.PMap

open Arc

variable {ε ρ : Type} {disk : Disk ρ} {src : Option (LeafSource ε ρ)} {cap : Cap}
  {shape : LeafShape} {key : Bytes}

/-! ## The tree without a row -/

/-- A tree less the row of a key, no leaf merged. -/
def dropRow : (n : Nat) → Tree ρ n → Bytes → Tree ρ n
  | 0, (es : Leaf ρ), key =>
    match searchKeys (es.map Prod.fst) key with
    | .error _ => es
    | .ok i => es.eraseIdx i
  | n + 1, (t : Inner (Tree ρ n)), key =>
    ((t.children[childSlot t.keys key]?).map fun c =>
      t.setChild (childSlot t.keys key) (dropRow n c key)).getD t

theorem removeTree_leaf {es t' : Tree ρ 0} {row : ρ}
    (h : removeTree cap shape 0 es key = some (some row, t')) : t' = dropRow 0 es key := by
  simp only [removeTree] at h
  unfold dropRow
  cases hs : searchKeys (List.map Prod.fst es) key with
  | error i =>
    simp only [hs] at h
    cases h
  | ok i =>
    simp only [hs] at h
    exact (Prod.ext_iff.mp (Option.some.inj h)).2.symm

variable {n : Nat}

theorem dropRow_interior {t : Inner (Tree ρ n)} {c : Tree ρ n}
    (h : t.children[childSlot t.keys key]? = some c) :
    dropRow (n + 1) t key = t.setChild (childSlot t.keys key) (dropRow n c key) := by
  show ((t.children[childSlot t.keys key]?).map fun c =>
    t.setChild (childSlot t.keys key) (dropRow n c key)).getD t = _
  rw [h]
  rfl

/-- There is one row less in it. -/
theorem length_records_dropRow : ∀ {t t' : Tree ρ n} {row : ρ},
    removeTree cap shape n t key = some (some row, t') →
    (records n t).length = (records n (dropRow n t key)).length + 1 := by
  induction n with
  | zero =>
    intro t t' row h
    rw [← removeTree_leaf h]
    simp only [removeTree] at h
    cases hs : searchKeys (List.map Prod.fst t) key with
    | error i =>
      simp only [hs] at h
      cases h
    | ok i =>
      simp only [hs] at h
      have hrow := (Prod.ext_iff.mp (Option.some.inj h)).1
      have ht := (Prod.ext_iff.mp (Option.some.inj h)).2
      dsimp only at hrow ht
      obtain ⟨e, he, -⟩ := Option.map_eq_some_iff.mp hrow
      have hi := (List.getElem?_eq_some_iff.mp he).1
      rw [← ht]
      show (t : Leaf ρ).length = ((t : Leaf ρ).eraseIdx i).length + 1
      rw [List.length_eraseIdx_of_lt hi]
      omega
  | succ n ih =>
    intro t t' row h
    obtain ⟨c, c', hc, hsub, -, -⟩ := removeTree_interior h
    have hlen := ih hsub
    have hi := (List.getElem?_eq_some_iff.mp hc).1
    rw [dropRow_interior hc]
    show (t.children.flatMap (records n)).length
      = ((t.children.set (childSlot t.keys key) (dropRow n c key)).flatMap (records n)).length + 1
    rw [Splice.set_eq hi]
    conv_lhs => rw [Splice.eq_cut hc]
    simp only [List.flatMap_append, List.flatMap_cons, List.length_append]
    omega

theorem InnerRel.childSlot_lt {S : Child → Tree ρ n → Prop} {nd : Node ε ρ}
    {t : Inner (Tree ρ n)} (hrel : InnerRel S nd.inner t) (key : Bytes) :
    childSlot nd.keys key < t.children.length := by
  have hlen := hrel.len
  have hle := childSlot_le nd.keys key
  have hsame := hrel.children.length_eq
  simp only [Node.inner] at hlen hsame
  omega

/-! ## The removes that lose a row -/

/-- The sibling a child is merged with (`rebalance_child`). -/
def mergeSibling (nd : Node ε ρ) (i : Nat) : Nat :=
  if i + 1 < nd.children.length then i + 1 else i - 1

/-- The sibling is on disk, and the source fails to load it. -/
def SiblingFails (src : Option (LeafSource ε ρ)) (cells : Nat) (nd : Node ε ρ) (i : Nat) : Prop :=
  ∃ p load e, nd.children[mergeSibling nd i]? = some (.onDisk p) ∧ src = some load ∧
    load cells p = .error e

/-- The cells that a removal from the leaf of a slot allocates: none for an edit in place. -/
def removalCells (h : Heap ε ρ) (leaf : Node ε ρ) : Child → Nat
  | .resident a => if leaf.page.page == 0 && h.isUnique a then 0 else 1
  | .onDisk _ => if leaf.page.page == 0 then 1 else 2

/-- The leaf of slot `i` holds the key, is too small without it, and the sibling it is to be merged
    with fails to load. -/
def LosesAt (src : Option (LeafSource ε ρ)) (cap : Cap) (shape : LeafShape) (key : Bytes)
    (h : Heap ε ρ) (nd : Node ε ρ) (i : Nat) (slot : Child) : Prop :=
  ∃ leaf k, enter src h slot = .ok leaf ∧ leaf.isLeaf = true ∧ leaf.search key = .ok k ∧
    leafPayload (leaf.weights.eraseIdx k) shape < cap.c / 2 ∧ 2 ≤ nd.children.length ∧
    SiblingFails src (h.cells.length + removalCells h leaf slot) nd i

/-- A node that is edited in place. -/
def InPlace (h : Heap ε ρ) (a : Addr) (nd : Node ε ρ) : Prop :=
  h.node? a = some nd ∧ nd.page.page = 0 ∧ h.isUnique a = true

/-- Every interior on the way to the key's leaf is edited in place, and the last one loses the
    row. -/
inductive LosesRow (src : Option (LeafSource ε ρ)) (cap : Cap) (shape : LeafShape) (key : Bytes)
    (h : Heap ε ρ) : Addr → Prop where
  | here {a : Addr} {nd : Node ε ρ} {slot : Child} (hin : InPlace h a nd)
      (hslot : nd.children[childSlot nd.keys key]? = some slot)
      (hl : LosesAt src cap shape key h nd (childSlot nd.keys key) slot) :
      LosesRow src cap shape key h a
  | deeper {a c : Addr} {nd : Node ε ρ} (hin : InPlace h a nd)
      (hslot : nd.children[childSlot nd.keys key]? = some (.resident c))
      (hl : LosesRow src cap shape key h c) : LosesRow src cap shape key h a

section

variable {h : Heap ε ρ}

/-- A removal through slot `i` loses the row, there or further down. -/
def LosesBelow (src : Option (LeafSource ε ρ)) (cap : Cap) (shape : LeafShape) (key : Bytes)
    (h : Heap ε ρ) (nd : Node ε ρ) (i : Nat) (slot : Child) : Prop :=
  LosesAt src cap shape key h nd i slot ∨ ∃ c, slot = .resident c ∧ LosesRow src cap shape key h c

theorem losesRow_iff {a : Addr} {nd : Node ε ρ} {slot : Child} (hn : h.node? a = some nd)
    (hslot : nd.children[childSlot nd.keys key]? = some slot) :
    LosesRow src cap shape key h a ↔ (nd.page.page = 0 ∧ h.isUnique a = true) ∧
      LosesBelow src cap shape key h nd (childSlot nd.keys key) slot := by
  constructor
  · intro hl
    cases hl with
    | here hin hslot' hl =>
      obtain ⟨hn', hd, hu⟩ := hin
      cases hn.symm.trans hn'
      cases hslot.symm.trans hslot'
      exact ⟨⟨hd, hu⟩, .inl hl⟩
    | deeper hin hslot' hl =>
      obtain ⟨hn', hd, hu⟩ := hin
      cases hn.symm.trans hn'
      cases hslot.symm.trans hslot'
      exact ⟨⟨hd, hu⟩, .inr ⟨_, rfl, hl⟩⟩
  · rintro ⟨hin, hl | ⟨c, rfl, hl⟩⟩
    · exact .here ⟨hn, hin⟩ hslot hl
    · exact .deeper ⟨hn, hin⟩ hslot hl

theorem not_losesRow_leaf {a : Addr} {es : Tree ρ 0} (hr : Rep disk h 0 a es) :
    ¬LosesRow src cap shape key h a := by
  obtain ⟨nd, hn, hleaf⟩ := hr
  intro hl
  cases hl with
  | here hin hslot hl =>
    cases hn.symm.trans hin.1
    rw [hleaf.children] at hslot
    cases hslot
  | deeper hin hslot hl =>
    cases hn.symm.trans hin.1
    rw [hleaf.children] at hslot
    cases hslot

/-- Above a leaf's parent nothing is lost at the node itself. -/
theorem not_losesAt_interior {n : Nat} {nd : Node ε ρ} {i : Nat} {slot : Child}
    {c : Tree ρ (n + 1)} (hr : RepSlot disk (Rep disk h (n + 1)) slot c) :
    ¬LosesAt src cap shape key h nd i slot := by
  rintro ⟨leaf, k, hent, hleaf, -⟩
  cases slot with
  | onDisk p => exact hr.elim
  | resident b =>
    obtain ⟨nd', hn, hrel⟩ := hr
    simp only [enter, hn] at hent
    cases hent
    rw [hrel.not_isLeaf] at hleaf
    cases hleaf

/-- A store that has fewer of the cells, with the tree among them, says the same of it. -/
theorem losesBelow_congr {h' : Heap ε ρ} (hlen : h'.cells.length = h.cells.length)
    (hcell : ∀ b c, h'.cell b = some c → h.cell b = some c) {n : Nat} :
    ∀ {nd : Node ε ρ} {i : Nat} {slot : Child} {t : Tree ρ n}, RepSlot disk (Rep disk h' n) slot t →
      (LosesBelow src cap shape key h' nd i slot ↔ LosesBelow src cap shape key h nd i slot) := by
  have hkeep : ∀ {b nd}, h'.node? b = some nd → h.node? b = some nd ∧ h.isUnique b = h'.isUnique b := by
    intro b nd hb
    obtain ⟨c, hc, rfl⟩ := node?_eq_some.mp hb
    have hc' := hcell b c hc
    refine ⟨node?_eq_some.mpr ⟨c, hc', rfl⟩, ?_⟩
    unfold Store.isUnique Store.strong
    rw [hc, hc']
  have hat : ∀ {n nd i slot} {t : Tree ρ n}, RepSlot disk (Rep disk h' n) slot t →
      (LosesAt src cap shape key h' nd i slot ↔ LosesAt src cap shape key h nd i slot) := by
    intro n nd i slot t hr
    unfold LosesAt
    cases slot with
    | onDisk p => simp only [enter, removalCells, hlen]
    | resident b =>
      obtain ⟨nd', hn', -⟩ := Rep.node hr
      simp only [enter, removalCells, hlen, hn', (hkeep hn').1, (hkeep hn').2]
  induction n with
  | zero =>
    intro nd i slot t hr
    unfold LosesBelow
    rw [hat hr]
    refine or_congr_right (exists_congr fun c => and_congr_right fun hc => ?_)
    subst hc
    have hleaf : Rep disk h' 0 c t := hr
    have hleaf' : Rep disk h 0 c t := hleaf.mono fun b nd hb => (hkeep hb).1
    exact iff_of_false (not_losesRow_leaf hleaf) (not_losesRow_leaf hleaf')
  | succ n ih =>
    intro nd i slot t hr
    unfold LosesBelow
    rw [hat hr]
    refine or_congr_right (exists_congr fun c => and_congr_right fun hc => ?_)
    subst hc
    obtain ⟨nd', hn, hrel⟩ := hr
    have hlt := hrel.childSlot_lt key
    obtain ⟨slot, hs, hrs, -, -⟩ := forall₂_cut hrel.children (List.getElem?_eq_getElem hlt)
    rw [losesRow_iff hn hs, losesRow_iff (hkeep hn).1 hs, (hkeep hn).2, ih hrs]

end

/-! ## The leaf -/

theorem length_dropAll (h : Heap ε ρ) (work : List Addr) :
    (h.dropAll Node.kids work).cells.length = h.cells.length := by
  fun_induction Store.dropAll Node.kids h work with
  | case1 => rfl
  | case2 s a work hcell ih => exact ih
  | case3 s a work c hcell hmany ih => rw [ih, Store.length_put]
  | case4 s a work c hcell hlast ih => rw [ih, Store.length_put]

theorem length_release (h : Heap ε ρ) (a : Addr) : (release h a).cells.length = h.cells.length :=
  length_dropAll h [a]

variable {a : Addr} {es : Leaf ρ}

/-- A removal from a leaf does not fail. -/
theorem removeLeaf_ok (key : Bytes) {h : Heap ε ρ} {nd : Node ε ρ} (hleaf : nd.IsLeafOf es) :
    ∃ row b h', removeLeaf h a nd key = (.ok row, b, h') ∧ (row.isSome = true →
      h'.cells.length = h.cells.length + if nd.page.page == 0 && h.isUnique a then 0 else 1) := by
  unfold removeLeaf
  cases nd.search key with
  | error i => exact ⟨none, a, h, rfl, fun hs => by cases hs⟩
  | ok i =>
    dsimp only
    split
    · refine ⟨_, _, _, rfl, fun _ => ?_⟩
      unfold Store.checkIn Store.checkOut
      rw [Store.length_put, Store.length_put, Nat.add_zero]
    · rw [hleaf.decodedParts]
      refine ⟨_, _, _, rfl, fun _ => ?_⟩
      rw [length_release]
      exact List.length_append

/-- What is known of the leaf of a slot. -/
theorem losesAt_iff {h : Heap ε ρ} {slot : Child} {ct' : Tree ρ 0} {leaf nd : Node ε ρ}
    {i : Nat} {row : Option ρ} (hent : enter src h slot = .ok leaf) (hleaf : leaf.IsLeafOf es)
    (hrem : removeTree cap shape 0 es key = some (row, ct')) :
    LosesAt src cap shape key h nd i slot ↔ row.isSome = true ∧
      payload cap shape 0 ct' < cap.c / 2 ∧ 2 ≤ nd.children.length ∧
        SiblingFails src (h.cells.length + removalCells h leaf slot) nd i := by
  have hsearch := hleaf.search key
  simp only [removeTree] at hrem
  cases hs : searchKeys (List.map Prod.fst es) key with
  | error k =>
    simp only [hs] at hrem
    cases hrem
    constructor
    · rintro ⟨leaf', k', hent', -, hfound, -⟩
      cases hent.symm.trans hent'
      rw [hsearch] at hfound
      cases hs.symm.trans hfound
    · rintro ⟨hsome, -⟩
      cases hsome
  | ok k =>
    simp only [hs] at hrem
    have hrow := (Prod.ext_iff.mp (Option.some.inj hrem)).1
    have ht := (Prod.ext_iff.mp (Option.some.inj hrem)).2
    dsimp only at hrow ht
    have hk : k < (es : Leaf ρ).length := (search_ok_lt hs).trans_eq (List.length_map ..)
    have hsome : row.isSome = true := by
      rw [← hrow, List.getElem?_eq_getElem hk]
      rfl
    have hpay : payload cap shape 0 ct' = leafPayload (leaf.weights.eraseIdx k) shape := by
      rw [hleaf.weights, List.eraseIdx_map, ← ht]
      rfl
    rw [hpay]
    constructor
    · rintro ⟨leaf', k', hent', -, hfound, hloses⟩
      cases hent.symm.trans hent'
      rw [hsearch] at hfound
      cases hs.symm.trans hfound
      exact ⟨hsome, hloses⟩
    · rintro ⟨-, hloses⟩
      exact ⟨leaf, k, hent, hleaf.isLeaf, hsearch.trans hs, hloses⟩

/-- What a removal from the leaf of a slot comes to. -/
theorem removeSlot_leaf (cap : Cap) (shape : LeafShape) (key : Bytes) (hsrc : SourceOk disk src)
    {h : Heap ε ρ} {slot : Child} {es : Tree ρ 0}
    (hr : RepSlot disk (Rep disk h 0) slot es) (fuel : Nat) :
    (∃ leaf row slot' h', enter src h slot = .ok leaf ∧ leaf.IsLeafOf (es : Leaf ρ) ∧
        removeSlot (nodeRemove src cap shape key (fuel + 1)) src h slot = (.ok row, slot', h') ∧
        (row.isSome = true → h'.cells.length = h.cells.length + removalCells h leaf slot)) ∨
      ∃ e, enter src h slot = .error e ∧
        removeSlot (nodeRemove src cap shape key (fuel + 1)) src h slot = (.error e, slot, h) := by
  cases slot with
  | resident a =>
    obtain ⟨nd, hn, hleaf⟩ := hr
    obtain ⟨row, b, h', hres, hlen⟩ := removeLeaf_ok key (h := h) (a := a) hleaf
    refine .inl ⟨nd, row, .resident b, h', by simp only [enter, hn], hleaf, ?_, hlen⟩
    simp only [removeSlot, nodeRemove, hn, hleaf.isLeaf, if_true, hres]
  | onDisk p =>
    obtain ⟨load, rfl⟩ := Option.isSome_iff_exists.mp (hsrc.present p es hr)
    cases hl : load h.cells.length p with
    | error e =>
      refine .inr ⟨.err e, by simp only [enter, hl], ?_⟩
      simp only [removeSlot, loadLeaf, hl]
    | ok nd =>
      have hleaf := hsrc.sound load rfl _ p es nd hr hl
      have hn : (h.alloc nd).2.node? h.cells.length = some nd := by
        simp [Store.node?, Store.cell_alloc]
      have hu : (h.alloc nd).2.isUnique h.cells.length = true := by
        simp [Store.isUnique, Store.strong, Store.cell_alloc]
      have hcells : (h.alloc nd).2.cells.length = h.cells.length + 1 := List.length_append
      obtain ⟨row, b, h', hres, hlen⟩ :=
        removeLeaf_ok key (h := (h.alloc nd).2) (a := h.cells.length) hleaf
      rw [hu, hcells] at hlen
      have hgo : nodeRemove (some load) cap shape key (fuel + 1) (h.alloc nd).2 h.cells.length
          = (.ok row, b, h') := by
        simp only [nodeRemove, hn, hleaf.isLeaf, if_true, hres]
      have hent : enter (some load) h (.onDisk p) = .ok nd := by simp only [enter, hl]
      cases row with
      | none =>
        refine .inl ⟨nd, none, .onDisk p, release h' b, hent, hleaf, ?_, fun hs => by cases hs⟩
        simp only [removeSlot, loadLeaf, hl, hgo]
      | some row =>
        refine .inl ⟨nd, some row, .resident b, h', hent, hleaf, ?_, fun hs => ?_⟩
        · simp only [removeSlot, loadLeaf, hl, hgo]
        · rw [hlen hs]
          unfold removalCells
          rw [Bool.and_true]
          split <;> rfl

/-! ## The merge -/

theorem replaceOperands_ok (h : Heap ε ρ) (nd : Node ε ρ) (j : Nat) (lslot rslot : Child)
    (g : Grown Addr) : (replaceOperands h nd j lslot rslot g).1 = .ok () := rfl

/-- Once both leaves are there a merge does not fail. -/
theorem mergeLeaves_ok {h : Heap ε ρ} {nd : Node ε ρ} {j : Nat} {lslot rslot : Child} {l r : Addr}
    {ln rn : Node ε ρ} {les res : Leaf ρ} (hleafl : ln.IsLeafOf les) (hleafr : rn.IsLeafOf res)
    (hopl : ∀ b ∈ lslot.addr?, b = l) (hopr : ∀ b ∈ rslot.addr?, b = r) :
    (mergeLeaves cap shape h nd j lslot rslot l r ln rn).1 = .ok () := by
  unfold mergeLeaves
  split
  · rfl
  · obtain ⟨lparts, hlp, -⟩ := leafParts_spec (h := h) hleafl hopl
    obtain ⟨rparts, hrp, -⟩ := leafParts_spec (h := h) hleafr hopr
    rw [hlp, hrp]
    exact replaceOperands_ok ..

theorem mergeInteriors_ok (h : Heap ε ρ) (nd : Node ε ρ) (j : Nat) (lslot rslot : Child)
    (ln rn : Node ε ρ) (sep : Bytes) :
    (mergeInteriors cap h nd j lslot rslot ln rn sep).1 = .ok () := by
  unfold mergeInteriors
  dsimp only
  split
  · rfl
  · split
    · rfl
    · exact replaceOperands_ok ..

/-- A merge fails when one of the pair is to be loaded and the source fails it. -/
def PairFails (src : Option (LeafSource ε ρ)) (cells : Nat) (slot : Child) : Prop :=
  ∃ p load e, slot = .onDisk p ∧ src = some load ∧ load cells p = .error e

theorem not_pairFails_resident {cells : Nat} : ¬PairFails src cells (.resident a) := by
  rintro ⟨p, load, e, h, -⟩
  cases h

theorem faultSlot_cases (hsrc : SourceOk disk src) {h : Heap ε ρ} {slot : Child}
    {c : Tree ρ n} {owned : List Addr} (hc : Counted Node.kids h owned)
    (hr : RepSlot disk (Rep disk h n) slot c) (hheld : ∀ b ∈ slot.addr?, b ∈ owned) :
    (PairFails src h.cells.length slot ∧ ∃ e, faultSlot src h slot = (.error e, h)) ∨
      ¬PairFails src h.cells.length slot ∧
      ∃ loaded h', faultSlot src h slot = (.ok loaded, h') ∧ (∀ a, slot = .resident a → h' = h) ∧
        Counted Node.kids h' (loaded.toList ++ owned) ∧ (∀ live, Extends Node.kids live h h') ∧
        ∃ a, slot.addr?.or loaded = some a ∧ (∀ b ∈ slot.addr?, b = a) ∧ a ∈ loaded.toList ++ owned ∧
          Rep disk h' n a c := by
  have hspec := faultSlot_spec hsrc hc hr hheld
  cases slot with
  | resident b =>
    right
    refine ⟨not_pairFails_resident, ?_⟩
    cases hspec with
    | inl hok =>
      obtain ⟨loaded, h', heq, hrest⟩ := hok
      refine ⟨loaded, h', heq, fun a ha => ?_, hrest⟩
      cases heq
      rfl
    | inr hfail =>
      obtain ⟨e, heq, -⟩ := hfail
      cases heq
  | onDisk p =>
    cases n with
    | succ n => exact hr.elim
    | zero =>
      obtain ⟨load, rfl⟩ := Option.isSome_iff_exists.mp (hsrc.present p c hr)
      cases hl : load h.cells.length p with
      | error e =>
        left
        refine ⟨⟨p, load, e, rfl, rfl, hl⟩, .err e, ?_⟩
        simp only [faultSlot, loadLeaf, hl]
      | ok nd =>
        right
        constructor
        · rintro ⟨p', load', e, hp, hload, he⟩
          cases hp
          cases hload
          rw [hl] at he
          cases he
        · cases hspec with
          | inl hok =>
            obtain ⟨loaded, h', heq, hrest⟩ := hok
            exact ⟨loaded, h', heq, fun a ha => (by cases ha), hrest⟩
          | inr hfail =>
            obtain ⟨e, heq, -⟩ := hfail
            simp only [faultSlot, loadLeaf, hl] at heq
            cases heq

/-- A merge of a pair of which one is resident fails exactly when the other one fails to load. -/
theorem mergeAt_fails (hsrc : SourceOk disk src) {h : Heap ε ρ} {nd : Node ε ρ}
    {t t' : Inner (Tree ρ n)} {j : Nat} {owned : List Addr} {lslot rslot : Child}
    (hslots : InnerRel (RepSlot disk (Rep disk h n)) nd.inner t)
    (hc : Counted Node.kids h (nd.kids ++ owned)) (hm : PMap.mergeAt cap shape n t j = some t')
    (hl : nd.children[j]? = some lslot) (hr : nd.children[j + 1]? = some rslot)
    (hres : (∃ a, lslot = .resident a) ∨ ∃ a, rslot = .resident a) :
    (∃ e, (Heap.mergeAt src cap shape h nd j).1 = .error e) ↔
      PairFails src h.cells.length lslot ∨ PairFails src h.cells.length rslot := by
  obtain ⟨lt, rt, sep, hlt, hrt, hsep, -⟩ := mergeAt_eq hm
  obtain ⟨lslot', hl', hrl, -, -⟩ := forall₂_cut hslots.children hlt
  obtain ⟨rslot', hr', hrr, -, -⟩ := forall₂_cut hslots.children hrt
  cases hl.symm.trans hl'
  cases hr.symm.trans hr'
  have hkey : nd.keys[j]? = some sep := by
    rw [show nd.keys = t.keys from hslots.keys]
    exact hsep
  have hheld : ∀ {i : Nat} {slot : Child}, nd.children[i]? = some slot →
      ∀ b ∈ slot.addr?, b ∈ nd.kids ++ owned := fun hi b hb =>
    List.mem_append_left _ (List.mem_filterMap.mpr ⟨_, List.mem_of_getElem? hi, hb⟩)
  unfold Heap.mergeAt
  rw [hl, hr, hkey]
  dsimp only
  cases faultSlot_cases hsrc hc hrl (hheld hl) with
  | inl hfail =>
    obtain ⟨hpair, e, heq⟩ := hfail
    rw [heq]
    exact iff_of_true ⟨e, rfl⟩ (.inl hpair)
  | inr hok =>
    obtain ⟨hpair, lload, h1, heq, hsame, hc1, he1, l, hlop, hlonly, hlheld, hlrep⟩ := hok
    rw [heq]
    dsimp only
    have hrr1 := hrr.extends (he1 (nd.kids ++ owned)) (hheld hr)
    have hcells : PairFails src h1.cells.length rslot ↔ PairFails src h.cells.length rslot := by
      cases hres with
      | inl hleft =>
        obtain ⟨a, ha⟩ := hleft
        rw [hsame a ha]
      | inr hright =>
        obtain ⟨a, rfl⟩ := hright
        exact iff_of_false not_pairFails_resident not_pairFails_resident
    cases faultSlot_cases hsrc hc1 hrr1 (fun b hb => List.mem_append_right _ (hheld hr b hb)) with
    | inl hfail =>
      obtain ⟨hpair2, e, heq2⟩ := hfail
      rw [heq2]
      exact iff_of_true ⟨e, rfl⟩ (.inr (hcells.mp hpair2))
    | inr hok2 =>
      obtain ⟨hpair2, rload, h2, heq2, -, hc2, he2, r, hrop, hronly, hrheld, hrrep⟩ := hok2
      rw [heq2]
      dsimp only
      rw [hlop, hrop]
      dsimp only
      have hlrep2 := Rep.extends hlrep (he2 [l]) List.mem_cons_self
      have hmerge : ∃ ln rn, h2.node? l = some ln ∧ h2.node? r = some rn ∧
          (if ln.isLeaf then mergeLeaves cap shape h2 nd j lslot rslot l r ln rn
            else mergeInteriors cap h2 nd j lslot rslot ln rn sep).1 = .ok () := by
        cases n with
        | zero =>
          obtain ⟨ln, hnl, hleafl⟩ := hlrep2
          obtain ⟨rn, hnr, hleafr⟩ := hrrep
          refine ⟨ln, rn, hnl, hnr, ?_⟩
          rw [if_pos hleafl.isLeaf]
          exact mergeLeaves_ok hleafl hleafr hlonly hronly
        | succ n =>
          obtain ⟨ln, hnl, hrell⟩ := hlrep2
          obtain ⟨rn, hnr, hrelr⟩ := hrrep
          refine ⟨ln, rn, hnl, hnr, ?_⟩
          rw [if_neg (by rw [hrell.not_isLeaf]; exact Bool.false_ne_true)]
          exact mergeInteriors_ok ..
      obtain ⟨ln, rn, hnl, hnr, hdone⟩ := hmerge
      rw [hnl, hnr]
      dsimp only
      rw [hdone]
      apply iff_of_false
      · rintro ⟨e, he⟩
        cases he
      · rintro (hp | hp)
        · exact hpair hp
        · exact hpair2 (hcells.mpr hp)

/-- A rebalance fails exactly when the child is too small, has a sibling, and that sibling fails to
    load. -/
theorem rebalanceChild_fails (hsrc : SourceOk disk src) {h : Heap ε ρ} {nd : Node ε ρ}
    {t t' : Inner (Tree ρ n)} {ct : Tree ρ n} {i : Nat} {owned : List Addr}
    (hslots : InnerRel (RepSlot disk (Rep disk h n)) nd.inner t) (hct : t.children[i]? = some ct)
    (hres : nd.children[i]? = some (.resident a)) (hc : Counted Node.kids h (nd.kids ++ owned))
    (hm : PMap.rebalanceChild cap shape n t i = some t') :
    (∃ e, (Heap.rebalanceChild src cap shape h nd i).1 = .error e) ↔
      payload cap shape n ct < cap.c / 2 ∧ 2 ≤ nd.children.length ∧
        SiblingFails src h.cells.length nd i := by
  obtain ⟨slot, hslot, hr, -, -⟩ := forall₂_cut hslots.children hct
  obtain rfl : Child.resident a = slot := Option.some.inj (hres.symm.trans hslot)
  obtain ⟨cn, hn, -⟩ := Rep.node hr
  have hpay : cn.payload cap shape = payload cap shape n ct := Rep.payload hr hn
  have hlen : nd.children.length = t.children.length := hslots.children.length_eq
  have hi := (List.getElem?_eq_some_iff.mp hres).1
  simp only [PMap.rebalanceChild, hct, Option.bind_eq_bind, Option.bind_some] at hm
  unfold Heap.rebalanceChild
  simp only [hres, Option.bind_some, Child.addr?, hn, hpay]
  by_cases hu : payload cap shape n ct < cap.c / 2
  · have hno : ¬(!underfull cap shape n ct) = true := by
      rw [show underfull cap shape n ct = true from decide_eq_true hu]
      decide
    have hno' : ¬(!decide (payload cap shape n ct < cap.c / 2)) = true := hno
    rw [if_neg hno] at hm
    rw [if_neg hno']
    by_cases hone : nd.children.length < 2
    · rw [if_pos hone]
      apply iff_of_false
      · rintro ⟨e, he⟩
        cases he
      · rintro ⟨-, htwo, -⟩
        omega
    · rw [if_neg hone]
      rw [← hlen, if_neg hone] at hm
      have hsibling : SiblingFails src h.cells.length nd i ↔
          ∃ slot, nd.children[mergeSibling nd i]? = some slot ∧ PairFails src h.cells.length slot := by
        constructor
        · rintro ⟨p, load, e, hp, hload, he⟩
          exact ⟨_, hp, p, load, e, rfl, hload, he⟩
        · rintro ⟨_, hp, p, load, e, rfl, hload, he⟩
          exact ⟨p, load, e, hp, hload, he⟩
      rw [and_iff_right hu, and_iff_right (Nat.not_lt.mp hone), hsibling]
      by_cases hnext : i + 1 < nd.children.length
      · have hr' : nd.children[i + 1]? = some nd.children[i + 1] := List.getElem?_eq_getElem hnext
        rw [if_pos hnext] at hm ⊢
        rw [mergeAt_fails hsrc hslots hc hm hres hr' (.inl ⟨a, rfl⟩), mergeSibling, if_pos hnext, hr',
          or_iff_right not_pairFails_resident]
        constructor
        · exact fun hp => ⟨_, rfl, hp⟩
        · rintro ⟨slot, heq, hp⟩
          cases heq
          exact hp
      · have hlt : i - 1 < nd.children.length := by omega
        have hl' : nd.children[i - 1]? = some nd.children[i - 1] := List.getElem?_eq_getElem hlt
        have hr' : nd.children[i - 1 + 1]? = some (.resident a) := by
          rw [show i - 1 + 1 = i by omega]
          exact hres
        rw [if_neg hnext] at hm ⊢
        rw [mergeAt_fails hsrc hslots hc hm hl' hr' (.inr ⟨a, rfl⟩), mergeSibling, if_neg hnext, hl',
          or_iff_left not_pairFails_resident]
        constructor
        · exact fun hp => ⟨_, rfl, hp⟩
        · rintro ⟨slot, heq, hp⟩
          cases heq
          exact hp
  · rw [if_pos (by simpa using hu)]
    apply iff_of_false
    · rintro ⟨e, he⟩
      cases he
    · rintro ⟨hu', -⟩
      exact hu hu'

/-! ## The descent -/

/-- How a removal through a borrowed parent ends: done, or failed with the tree as it was, or failed
    with the row gone. -/
inductive BorrowFate (disk : Disk ρ) (src : Option (LeafSource ε ρ)) (cap : Cap) (shape : LeafShape)
    (key : Bytes) (h : Heap ε ρ) {n : Nat} (nd : Node ε ρ) (i : Nat) (slot : Child)
    (t : Inner (Tree ρ n)) : Except (Fault ε) (Option ρ) × Node ε ρ × Heap ε ρ → Prop where
  | done {row : Option ρ} {nd' : Node ε ρ} {h' : Heap ε ρ}
      (hl : ¬LosesBelow src cap shape key h nd i slot) :
      BorrowFate disk src cap shape key h nd i slot t (.ok row, nd', h')
  | kept {e : Fault ε} {nd' : Node ε ρ} {h' : Heap ε ρ}
      (hr : InnerRel (RepSlot disk (Rep disk h' n)) nd'.inner t)
      (hl : ¬LosesBelow src cap shape key h nd i slot) :
      BorrowFate disk src cap shape key h nd i slot t (.error e, nd', h')
  | lost {e : Fault ε} {nd' : Node ε ρ} {h' : Heap ε ρ} {ct : Tree ρ n}
      (hi : t.children[i]? = some ct)
      (hr : InnerRel (RepSlot disk (Rep disk h' n)) nd'.inner (t.setChild i (dropRow n ct key)))
      (hl : LosesBelow src cap shape key h nd i slot) :
      BorrowFate disk src cap shape key h nd i slot t (.error e, nd', h')

/-- How `node_remove` ends. -/
inductive RemoveFate (disk : Disk ρ) (src : Option (LeafSource ε ρ)) (cap : Cap) (shape : LeafShape)
    (key : Bytes) (h : Heap ε ρ) {n : Nat} (a : Addr) (t : Tree ρ n) :
    Except (Fault ε) (Option ρ) × Addr × Heap ε ρ → Prop where
  | done {row : Option ρ} {b : Addr} {h' : Heap ε ρ} (hl : ¬LosesRow src cap shape key h a) :
      RemoveFate disk src cap shape key h a t (.ok row, b, h')
  | kept {e : Fault ε} {h' : Heap ε ρ} (hr : Rep disk h' n a t)
      (hl : ¬LosesRow src cap shape key h a) :
      RemoveFate disk src cap shape key h a t (.error e, a, h')
  | lost {e : Fault ε} {h' : Heap ε ρ} (hr : Rep disk h' n a (dropRow n t key))
      (hl : LosesRow src cap shape key h a) :
      RemoveFate disk src cap shape key h a t (.error e, a, h')

section Descent

variable {h : Heap ε ρ} {nd : Node ε ρ} {i : Nat} {slot : Child} {owned : List Addr}

theorem mergeSibling_setChild (nd : Node ε ρ) (i : Nat) (c : Child) :
    mergeSibling (nd.withInner (nd.inner.setChild i c)) i = mergeSibling nd i := by
  have hlen : (nd.withInner (nd.inner.setChild i c)).children.length = nd.children.length :=
    List.length_set
  unfold mergeSibling
  rw [hlen]

/-- The sibling is another slot. -/
theorem siblingFails_setChild {cells : Nat} {c : Child} (hi : i < nd.children.length)
    (htwo : 2 ≤ nd.children.length) :
    SiblingFails src cells (nd.withInner (nd.inner.setChild i c)) i ↔
      SiblingFails src cells nd i := by
  have hne : i ≠ mergeSibling nd i := by
    unfold mergeSibling
    split <;> omega
  have hsame : (nd.withInner (nd.inner.setChild i c)).children[mergeSibling nd i]?
      = nd.children[mergeSibling nd i]? := List.getElem?_set_ne hne
  unfold SiblingFails
  rw [mergeSibling_setChild, hsame]

theorem InnerRel.not_onDisk {n : Nat} {t : Inner Child} {u : Inner (Tree ρ (n + 1))}
    (hrel : InnerRel (RepSlot disk (Rep disk h (n + 1))) t u) {k : Nat} {p : PageRef} :
    t.children[k]? ≠ some (.onDisk p) := by
  intro hp
  have hlt := (List.getElem?_eq_some_iff.mp hp).1
  have hlt' : k < u.children.length := hrel.children.length_eq ▸ hlt
  obtain ⟨slot, hs, hr, -, -⟩ := forall₂_cut hrel.children (List.getElem?_eq_getElem hlt')
  cases hs.symm.trans hp
  exact hr

/-- The parent of leaves. -/
theorem removeBorrowed_bottom (hsrc : SourceOk disk src) {t t' : Inner (Tree ρ 0)}
    {ct ct' : Tree ρ 0} {row : Option ρ} {fuel : Nat}
    (hgo : GoRemoves disk (nodeRemove src cap shape key (fuel + 1)) ct ct' row)
    (hrem : removeTree cap shape 0 ct key = some (row, ct'))
    (hc : Counted Node.kids h (nd.kids ++ owned))
    (hrel : InnerRel (RepSlot disk (Rep disk h 0)) nd.inner t) (hi : t.children[i]? = some ct)
    (hslot : nd.children[i]? = some slot)
    (hsome : row.isSome → rebalanceChild cap shape 0 (t.setChild i ct') i = some t') :
    BorrowFate disk src cap shape key h nd i slot t
      (removeBorrowed (nodeRemove src cap shape key (fuel + 1)) src cap shape h nd i slot) := by
  obtain ⟨slot', hs', hrs, hpre, hpost⟩ := forall₂_cut hrel.children hi
  obtain rfl : slot = slot' := Option.some.inj (hslot.symm.trans hs')
  obtain ⟨hlt, -⟩ := List.getElem?_eq_some_iff.mp hslot
  have hsub := removeSlot_spec hsrc hgo (fun hnone => removeTree_absent (hnone ▸ hrem))
    (hc.perm (kidsOf_open hslot owned).symm) hrs
  have hbelow : LosesBelow src cap shape key h nd i slot ↔ LosesAt src cap shape key h nd i slot := by
    refine or_iff_left ?_
    rintro ⟨c, rfl, hl⟩
    have hleaf : Rep disk h 0 c ct := hrs
    exact not_losesRow_leaf hleaf hl
  unfold removeBorrowed
  cases removeSlot_leaf cap shape key hsrc hrs fuel with
  | inr hfail =>
    obtain ⟨e, hent, heq⟩ := hfail
    rw [heq]
    refine .kept ?_ ?_
    · show InnerRel _ (nd.inner.setChild i slot) t
      rw [Inner.setChild_self (t := nd.inner) hslot]
      exact hrel
    · rw [hbelow]
      rintro ⟨leaf, k, hent', -⟩
      rw [hent] at hent'
      cases hent'
  | inl hok =>
    obtain ⟨leaf, row', slot', h', hent, hleaf, heq, hcells⟩ := hok
    rw [heq] at hsub ⊢
    cases hsub with
    | done he hc' hr hres =>
      cases row with
      | none =>
        refine .done ?_
        rw [hbelow, losesAt_iff hent hleaf hrem]
        rintro ⟨hsome', -⟩
        cases hsome'
      | some row =>
        obtain ⟨b, rfl⟩ := hres rfl
        have hnew := hrel.setChild hlt (slots_extends hpre he kidsOf_take_mem) hr
          (slots_extends hpost he kidsOf_drop_mem)
        have hcnt : Counted Node.kids h' ((nd.withInner (nd.inner.setChild i (.resident b))).kids
            ++ owned) := hc'.perm (kidsOf_set hlt (.resident b) owned)
        have hat : (nd.withInner (nd.inner.setChild i (.resident b))).children[i]? =
            some (.resident b) := by
          simp [Node.withInner, Inner.setChild, Node.inner, hlt]
        have hct : (t.setChild i ct').children[i]? = some ct' := by
          obtain ⟨hlt', -⟩ := List.getElem?_eq_some_iff.mp hi
          simp [Inner.setChild, hlt']
        have hlen : (nd.withInner (nd.inner.setChild i (.resident b))).children.length
            = nd.children.length := List.length_set
        have hfails := rebalanceChild_fails hsrc hnew hct hat hcnt (hsome rfl)
        have hloses : LosesBelow src cap shape key h nd i slot ↔
            ∃ e, (Heap.rebalanceChild src cap shape h'
              (nd.withInner (nd.inner.setChild i (.resident b))) i).1 = .error e := by
          rw [hbelow, losesAt_iff hent hleaf hrem, hfails, hlen, hcells rfl]
          constructor
          · rintro ⟨-, hsmall, htwo, hsib⟩
            exact ⟨hsmall, htwo, (siblingFails_setChild hlt htwo).mpr hsib⟩
          · rintro ⟨hsmall, htwo, hsib⟩
            exact ⟨rfl, hsmall, htwo, (siblingFails_setChild hlt htwo).mp hsib⟩
        have hreb := Heap.rebalanceChild_spec hsrc hnew hat hcnt (hsome rfl)
        dsimp only
        revert hreb hloses
        generalize Heap.rebalanceChild src cap shape h' _ i = r
        intro hloses hreb
        cases hreb with
        | done he2 hc2 hr2 =>
          refine .done ?_
          rw [hloses]
          rintro ⟨e, he⟩
          cases he
        | failed hs he2 hc2 hr2 =>
          refine .lost hi ?_ (hloses.mpr ⟨_, rfl⟩)
          rw [← removeTree_leaf hrem]
          exact hr2

/-- An interior above: nothing is loaded on the way back up. -/
theorem removeBorrowed_above {n : Nat} (hsrc : SourceOk disk src) {t t' : Inner (Tree ρ (n + 1))}
    {ct ct' : Tree ρ (n + 1)} {row : Option ρ}
    {go : Heap ε ρ → Addr → Except (Fault ε) (Option ρ) × Addr × Heap ε ρ}
    (hgo : GoRemoves disk go ct ct' row) (hrow : row = none → ct' = ct)
    (hfate : ∀ c, slot = .resident c → RemoveFate disk src cap shape key h c ct (go h c))
    (hc : Counted Node.kids h (nd.kids ++ owned))
    (hrel : InnerRel (RepSlot disk (Rep disk h (n + 1))) nd.inner t)
    (hi : t.children[i]? = some ct) (hslot : nd.children[i]? = some slot)
    (hsome : row.isSome → rebalanceChild cap shape (n + 1) (t.setChild i ct') i = some t') :
    BorrowFate disk src cap shape key h nd i slot t
      (removeBorrowed go src cap shape h nd i slot) := by
  obtain ⟨slot', hs', hrs, hpre, hpost⟩ := forall₂_cut hrel.children hi
  obtain rfl : slot = slot' := Option.some.inj (hslot.symm.trans hs')
  obtain ⟨hlt, -⟩ := List.getElem?_eq_some_iff.mp hslot
  cases slot with
  | onDisk p => exact hrs.elim
  | resident c =>
    have hsub := hgo h c (others nd.children i ++ owned) (hc.perm (kidsOf_open hslot owned).symm) hrs
    have hbelow : LosesBelow src cap shape key h nd i (.resident c) ↔
        LosesRow src cap shape key h c := by
      unfold LosesBelow
      rw [or_iff_right (not_losesAt_interior hrs)]
      constructor
      · rintro ⟨c', hc', hl⟩
        cases hc'
        exact hl
      · exact fun hl => ⟨c, rfl, hl⟩
    have hf := hfate c rfl
    unfold removeBorrowed removeSlot
    dsimp only
    revert hsub hf
    generalize go h c = r
    intro hsub hf
    have hset : ∀ {h' : Heap ε ρ} {b : Addr} {u : Tree ρ (n + 1)},
        Extends Node.kids (others nd.children i ++ owned) h h' → Rep disk h' (n + 1) b u →
        InnerRel (RepSlot disk (Rep disk h' (n + 1))) (nd.inner.setChild i (.resident b))
          (t.setChild i u) := fun he hr =>
      hrel.setChild (c := Child.resident _) hlt (slots_extends hpre he kidsOf_take_mem) hr
        (slots_extends hpost he kidsOf_drop_mem)
    cases hsub with
    | failed hs he hc' =>
      cases hf with
      | kept hr hl =>
        refine .kept ?_ (hbelow.not.mpr hl)
        have := hset he hr
        rwa [Inner.setChild_self hi] at this
      | lost hr hl => exact .lost hi (hset he hr) (hbelow.mpr hl)
    | @done h' b he hc' hr hd =>
      cases hf with
      | done hl =>
        cases row with
        | none => exact .done (hbelow.not.mpr hl)
        | some row =>
          have hnew := hset he hr
          have hcnt : Counted Node.kids h' ((nd.withInner (nd.inner.setChild i (.resident b))).kids
              ++ owned) := by
            refine Counted.perm ?_ (kidsOf_set hlt (.resident b) owned)
            exact hc'
          have hat : (nd.withInner (nd.inner.setChild i (.resident b))).children[i]? =
              some (.resident b) := by
            simp [Node.withInner, Inner.setChild, Node.inner, hlt]
          have hct : (t.setChild i ct').children[i]? = some ct' := by
            obtain ⟨hlt', -⟩ := List.getElem?_eq_some_iff.mp hi
            simp [Inner.setChild, hlt']
          have hfails := rebalanceChild_fails hsrc hnew hct hat hcnt (hsome rfl)
          have hno : ¬∃ e, (Heap.rebalanceChild src cap shape h'
              (nd.withInner (nd.inner.setChild i (.resident b))) i).1 = .error e := by
            rw [hfails]
            rintro ⟨-, -, p, load, e, hp, -⟩
            exact hnew.not_onDisk hp
          dsimp only
          revert hno
          generalize Heap.rebalanceChild src cap shape h' _ i = r
          intro hno
          obtain ⟨res, nd', h2⟩ := r
          cases res with
          | ok _ => exact .done (hbelow.not.mpr hl)
          | error e => exact absurd ⟨e, rfl⟩ hno

end Descent

/-- A removal fails with the row gone exactly when it loses the row, and otherwise with the tree as it
    was. -/
theorem nodeRemove_fate (hsrc : SourceOk disk src) :
    ∀ {t t' : Tree ρ n} {row : Option ρ} {fuel : Nat} {h : Heap ε ρ} {a : Addr}
      {owned : List Addr}, n < fuel → Counted Node.kids h (a :: owned) → Rep disk h n a t →
      removeTree cap shape n t key = some (row, t') →
      RemoveFate disk src cap shape key h a t (nodeRemove src cap shape key fuel h a) := by
  induction n with
  | zero =>
    rintro t t' row fuel h a owned hfuel hc ⟨nd, hn, hleaf⟩ hrem
    obtain ⟨fuel, rfl⟩ : ∃ k, fuel = k + 1 := ⟨fuel - 1, by omega⟩
    obtain ⟨row', b, h', hres, -⟩ := removeLeaf_ok key (h := h) (a := a) hleaf
    have hr : Rep disk h 0 a t := ⟨nd, hn, hleaf⟩
    simp only [nodeRemove, hn, hleaf.isLeaf, if_true, hres]
    exact .done (not_losesRow_leaf hr)
  | succ n ih =>
    rintro t t' row fuel h a owned hfuel hc ⟨nd, hn, hrel⟩ hrem
    obtain ⟨fuel, rfl⟩ : ∃ k, fuel = k + 1 := ⟨fuel - 1, by omega⟩
    have hr : Rep disk h (n + 1) a t := ⟨nd, hn, hrel⟩
    obtain ⟨ct, ct', hi, hsub, hnone, hsome⟩ := removeTree_interior hrem
    have hgo : GoRemoves disk (nodeRemove src cap shape key fuel) ct ct' row :=
      fun h c owned hc hr => nodeRemove_spec hsrc (by omega) hc hr hsub
    have hkeys : nd.keys = t.keys := hrel.keys
    rw [← hkeys] at hi hsome
    obtain ⟨slot, hslot, hrs, -, -⟩ := forall₂_cut hrel.children hi
    simp only [nodeRemove, hn, hrel.not_isLeaf, Bool.false_eq_true, if_false,
      show nd.children[childSlot nd.keys key]? = some slot from hslot]
    split
    · rename_i hu
      simp only [Bool.and_eq_true, beq_iff_eq] at hu
      obtain ⟨hout, heout, hback⟩ := borrow_spec hc hn hu.2
      have hrel' := hrel.extends heout (fun b hb => List.mem_append_left _ hb)
      have hpost := removeBorrowed_spec hsrc hgo
        (fun hr => removeTree_absent (hr ▸ hsub)) hout hrel' hi hslot hnone hsome
      obtain ⟨slot', hslot', hrs', -, -⟩ := forall₂_cut hrel'.children hi
      obtain rfl : slot = slot' := Option.some.inj (hslot.symm.trans hslot')
      have hcell : ∀ b c, (h.checkOut a).cell b = some c → h.cell b = some c := by
        intro b c hb
        obtain ⟨ca, hca, -⟩ := node?_eq_some.mp hn
        rw [Store.checkOut, Store.cell_put (Store.lt_of_cell hca)] at hb
        split at hb
        · cases hb
        · exact hb
      have hloses : LosesRow src cap shape key h a ↔
          LosesBelow src cap shape key (h.checkOut a) nd (childSlot nd.keys key) slot := by
        rw [losesRow_iff hn hslot, and_iff_right hu]
        exact (losesBelow_congr (Store.length_put ..) hcell hrs').symm
      have hfate : BorrowFate disk src cap shape key (h.checkOut a) nd (childSlot nd.keys key) slot t
          (removeBorrowed (nodeRemove src cap shape key fuel) src cap shape (h.checkOut a) nd
            (childSlot nd.keys key) slot) := by
        cases n with
        | zero =>
          obtain ⟨fuel, rfl⟩ : ∃ k, fuel = k + 1 := ⟨fuel - 1, by omega⟩
          exact removeBorrowed_bottom hsrc hgo hsub hout hrel' hi hslot hsome
        | succ n =>
          refine removeBorrowed_above hsrc hgo (fun hr => removeTree_absent (hr ▸ hsub)) ?_ hout hrel' hi
            hslot hsome
          rintro c rfl
          exact ih (by omega) (hout.perm (kidsOf_open hslot owned).symm) hrs' hsub
      revert hpost hfate
      generalize removeBorrowed _ src cap shape (h.checkOut a) nd _ slot = r
      intro hpost hfate
      cases hpost with
      | done he hc' hr' =>
        cases hfate with
        | done hl => exact .done (hloses.not.mpr hl)
      | failed hs he hc' =>
        obtain ⟨-, -, h3, h4⟩ := hback _ _ _ hc' he
        cases hfate with
        | kept hr' hl => exact .kept (Rep.inner h3 (hr'.keep h4)) (hloses.not.mpr hl)
        | lost hi' hr' hl =>
          refine .lost ?_ (hloses.mpr hl)
          rw [hkeys] at hi' hr'
          rw [dropRow_interior hi']
          exact Rep.inner h3 (hr'.keep h4)
    · rename_i hshared
      have hpost := removeCopied_post hsrc hgo hc hn hrel hi hslot hnone hsome
      have hl : ¬LosesRow src cap shape key h a := by
        rw [losesRow_iff hn hslot]
        rintro ⟨⟨hd, hu⟩, -⟩
        rw [hd, hu] at hshared
        exact hshared rfl
      revert hpost
      generalize removeCopied _ src cap shape h a nd _ slot = r
      intro hpost
      cases hpost with
      | done he hc' hr' hd => exact .done hl
      | failed hs he hc' => exact .kept (hr.extends he List.mem_cons_self) hl

/-! ## The root -/

/-- An only child is resident: a root that hands itself down loads nothing. -/
def Lone (nd : Node ε ρ) : Prop :=
  nd.children.length = 1 → ∃ c, nd.children[0]? = some (.resident c)

section Lone

variable {h : Heap ε ρ} {nd : Node ε ρ} {j : Nat}

theorem lone_of_two (htwo : 2 ≤ nd.children.length) : Lone nd := fun hone => by omega

theorem lone_replacePair (hj : j + 1 < nd.children.length) (hk : j < nd.keys.length)
    (g : Grown Addr) : Lone (nd.withInner (replacePair nd.inner j (g.map .resident))) := by
  intro hone
  have hshape := replacePair_eq (t := nd.inner) hj hk (g.map Child.resident)
  have hchildren : (nd.withInner (replacePair nd.inner j (g.map .resident))).children
      = nd.children.take j ++ (g.map Child.resident).nodes ++ nd.children.drop (j + 2) :=
    congrArg Inner.children hshape
  rw [hchildren] at hone ⊢
  cases g with
  | whole a =>
    change (nd.children.take j ++ [Child.resident a] ++ nd.children.drop (j + 2)).length = 1 at hone
    have hzero : j = 0 := by
      simp only [List.length_append, List.length_take, List.length_singleton] at hone
      omega
    subst hzero
    exact ⟨a, rfl⟩
  | split l sep r =>
    change (nd.children.take j ++ [Child.resident l, Child.resident r]
      ++ nd.children.drop (j + 2)).length = 1 at hone
    simp only [List.length_append, List.length_cons] at hone
    omega

theorem mergeLeaves_lone (hj : j + 1 < nd.children.length) (hk : j < nd.keys.length)
    (lslot rslot : Child) (l r : Addr) (ln rn : Node ε ρ) :
    Lone (mergeLeaves cap shape h nd j lslot rslot l r ln rn).2.1 := by
  have htwo : Lone nd := lone_of_two (by omega)
  unfold mergeLeaves
  split
  · exact htwo
  · split
    · exact htwo
    · exact htwo
    · exact lone_replacePair hj hk _

theorem mergeInteriors_lone (hj : j + 1 < nd.children.length) (hk : j < nd.keys.length)
    (lslot rslot : Child) (ln rn : Node ε ρ) (sep : Bytes) :
    Lone (mergeInteriors cap h nd j lslot rslot ln rn sep).2.1 := by
  have htwo : Lone nd := lone_of_two (by omega)
  unfold mergeInteriors
  dsimp only
  split
  · exact htwo
  · split
    · exact htwo
    · exact lone_replacePair hj hk _

theorem mergeAt_lone (htwo : 2 ≤ nd.children.length) :
    Lone (Heap.mergeAt src cap shape h nd j).2.1 := by
  have hsame : Lone nd := lone_of_two htwo
  unfold Heap.mergeAt
  split
  · rename_i lslot rslot sep hl hr hsep
    have hj := (List.getElem?_eq_some_iff.mp hr).1
    have hk := (List.getElem?_eq_some_iff.mp hsep).1
    split
    · exact hsame
    · split
      · exact hsame
      · split
        · split
          · dsimp only
            split
            · exact mergeLeaves_lone hj hk _ _ _ _ _ _
            · exact mergeInteriors_lone hj hk _ _ _ _ _
          · exact hsame
        · exact hsame
  · exact hsame

variable {a : Addr}

theorem rebalanceChild_lone (src : Option (LeafSource ε ρ)) (cap : Cap) (shape : LeafShape)
    (h : Heap ε ρ) {nd : Node ε ρ} {i : Nat} (hres : nd.children[i]? = some (.resident a)) :
    Lone (Heap.rebalanceChild src cap shape h nd i).2.1 := by
  have hi := (List.getElem?_eq_some_iff.mp hres).1
  have hsame : Lone nd := by
    intro hone
    obtain rfl : i = 0 := by omega
    exact ⟨a, hres⟩
  unfold Heap.rebalanceChild
  split
  · exact hsame
  · split
    · exact hsame
    · split
      · exact hsame
      · rename_i htwo
        exact mergeAt_lone (Nat.not_lt.mp htwo)

theorem setChild_at {i : Nat} {slot c : Child} (hslot : nd.children[i]? = some slot) :
    (nd.inner.setChild i c).children[i]? = some c := by
  have hi := (List.getElem?_eq_some_iff.mp hslot).1
  show (nd.children.set i c)[i]? = some c
  rw [List.getElem?_set_self hi]

variable {go : Heap ε ρ → Addr → Except (Fault ε) (Option ρ) × Addr × Heap ε ρ} {row : ρ} {h' : Heap ε ρ}

theorem removeSlot_resident {slot slot' : Child}
    (hres : removeSlot go src h slot = (.ok (some row), slot', h')) : ∃ c, slot' = .resident c := by
  unfold removeSlot at hres
  cases slot with
  | resident c =>
    dsimp only at hres
    generalize go h c = r at hres
    obtain ⟨res, b, h1⟩ := r
    cases hres
    exact ⟨_, rfl⟩
  | onDisk p =>
    dsimp only at hres
    split at hres
    · cases hres
    · rename_i c h1 hload
      generalize go h1 c = r at hres
      obtain ⟨res, b, h2⟩ := r
      cases res with
      | error e => cases hres
      | ok row' =>
        cases row' with
        | none => cases hres
        | some row' =>
          cases hres
          exact ⟨_, rfl⟩

theorem removeBorrowed_lone {i : Nat} {slot : Child} {nd' : Node ε ρ} (hslot : nd.children[i]? = some slot)
    (hres : removeBorrowed go src cap shape h nd i slot = (.ok (some row), nd', h')) : Lone nd' := by
  unfold removeBorrowed at hres
  split at hres
  · cases hres
  · cases hres
  · rename_i row' slot' h1 hsub
    obtain ⟨c, rfl⟩ := removeSlot_resident hsub
    split at hres
    · cases hres
    · rename_i nd1 h2 hreb
      cases hres
      have hat : (nd.withInner (nd.inner.setChild i (.resident c))).children[i]?
          = some (.resident c) := setChild_at hslot
      have := rebalanceChild_lone src cap shape h1 hat
      rwa [hreb] at this

variable {x : Node ε ρ}

theorem node?_put {c : Cell (Node ε ρ)} (hx : (h.put a (some c)).node? a = some x) : x = c.node := by
  obtain ⟨c', hc', rfl⟩ := node?_eq_some.mp hx
  have hlt : a < (h.put a (some c)).cells.length := Store.lt_of_cell hc'
  rw [Store.length_put] at hlt
  rw [Store.cell_put hlt, if_pos rfl] at hc'
  cases hc'
  rfl

variable {b : Addr}

theorem node?_dropAll (h : Heap ε ρ) (work : List Addr)
    (hx : (h.dropAll Node.kids work).node? b = some x) : h.node? b = some x := by
  fun_induction Store.dropAll Node.kids h work with
  | case1 => exact hx
  | case2 s a work hcell ih => exact ih hx
  | case3 s a work c hcell hmany ih =>
    have := ih hx
    by_cases hb : b = a
    · subst hb
      have hnode := node?_put this
      exact node?_eq_some.mpr ⟨c, hcell, hnode.symm⟩
    · obtain ⟨c', hc', hnode⟩ := node?_eq_some.mp this
      rw [Store.cell_put (Store.lt_of_cell hcell), if_neg hb] at hc'
      exact node?_eq_some.mpr ⟨c', hc', hnode⟩
  | case4 s a work c hcell hlast ih =>
    have := ih hx
    obtain ⟨c', hc', hnode⟩ := node?_eq_some.mp this
    rw [Store.cell_put (Store.lt_of_cell hcell)] at hc'
    split at hc'
    · cases hc'
    · exact node?_eq_some.mpr ⟨c', hc', hnode⟩

theorem node?_alloc {nd : Node ε ρ} (hx : (h.alloc nd).2.node? h.cells.length = some x) : x = nd := by
  have hnew : (h.alloc nd).2.node? h.cells.length = some nd := by
    simp [Store.node?, Store.cell_alloc]
  exact Option.some.inj (hx.symm.trans hnew)

theorem removeCopied_lone {i : Nat} {slot : Child} (hslot : nd.children[i]? = some slot)
    (hres : removeCopied go src cap shape h a nd i slot = (.ok (some row), b, h'))
    (hx : h'.node? b = some x) : Lone x := by
  unfold removeCopied at hres
  split at hres
  · cases hres
  · split at hres
    · cases hres
    · cases hres
    · rename_i row' c h1 hsub
      dsimp only at hres
      split at hres
      · cases hres
      · rename_i rebuilt h2 hreb
        cases hres
        obtain rfl := node?_alloc (node?_dropAll _ _ hx)
        have hat : (Node.interior (nd.inner.setChild i (.resident c)) : Node ε ρ).children[i]?
            = some (.resident c) := setChild_at hslot
        have := rebalanceChild_lone src cap shape (releaseSlot (h1.cloneAll nd.kids) slot) hat
        rwa [hreb] at this

theorem removeLeaf_lone (hleaf : nd.isLeaf = true)
    (hres : removeLeaf h a nd key = (.ok (some row), b, h')) (hx : h'.node? b = some x) : Lone x := by
  have hnone : nd.children = [] := List.isEmpty_iff.mp hleaf
  have hempty : ∀ {y : Node ε ρ}, y.children = [] → Lone y := by
    intro y hy hone
    rw [hy] at hone
    cases hone
  unfold removeLeaf at hres
  split at hres
  · cases hres
  · split at hres
    · injection hres with _ hres
      injection hres with hb hh
      subst hb hh
      rw [node?_put hx]
      exact hempty hnone
    · split at hres
      · cases hres
      · injection hres with _ hres
        injection hres with hb hh
        subst hb hh
        rw [node?_alloc (node?_dropAll _ _ hx)]
        exact hempty rfl

theorem nodeRemove_lone {fuel : Nat} (hres : nodeRemove src cap shape key fuel h a = (.ok (some row), b, h'))
    (hx : h'.node? b = some x) : Lone x := by
  cases fuel with
  | zero => cases hres
  | succ fuel =>
    unfold nodeRemove at hres
    split at hres
    · cases hres
    · rename_i nd hn
      split at hres
      · rename_i hleaf
        exact removeLeaf_lone hleaf hres hx
      · dsimp only at hres
        split at hres
        · cases hres
        · rename_i slot hslot
          split at hres
          · generalize hsub : removeBorrowed (nodeRemove src cap shape key fuel) src cap shape
              (h.checkOut a) nd (childSlot nd.keys key) slot = r at hres
            obtain ⟨res, nd', h1⟩ := r
            cases hres
            rw [node?_put hx]
            exact removeBorrowed_lone hslot hsub
          · exact removeCopied_lone hslot hres hx

end Lone

/-! ## What a map holds -/

/-- A source whose loads succeed. -/
structure Serves (disk : Disk ρ) (src : Option (LeafSource ε ρ)) : Prop extends SourceOk disk src where
  loads : ∀ load ∈ src, ∀ k p, (disk p).isSome → ∃ nd, load k p = .ok nd

/-- The source that hands over the pages as decoded leaves. -/
def diskSource (disk : Disk ρ) : LeafSource ε ρ := fun _ p => .ok (.leaf ((disk p).getD []))

theorem diskSource_serves (disk : Disk ρ) :
    Serves disk (some (diskSource disk : LeafSource ε ρ)) where
  present _ _ _ := rfl
  sound := by
    intro load hload k p es nd hp hnd
    cases hload
    simp only [diskSource, hp, Option.getD_some] at hnd
    cases hnd
    exact Node.leaf_isLeafOf es
  loads := by
    intro load hload k p _
    cases hload
    exact ⟨_, rfl⟩

section Serves

variable {h : Heap ε ρ}

variable {n : Nat}

theorem enter_serves (hsrc : Serves disk src) {slot : Child} {t : Tree ρ n}
    (hr : RepSlot disk (Rep disk h n) slot t) :
    ∃ nd, enter src h slot = .ok nd ∧ NodeRep disk h n nd t := by
  cases slot with
  | resident a =>
    obtain ⟨nd, hn, hnr⟩ := Rep.node hr
    exact ⟨nd, by simp only [enter, hn], hnr⟩
  | onDisk p =>
    cases n with
    | succ n => exact hr.elim
    | zero =>
      have hp : disk p = some t := hr
      obtain ⟨load, rfl⟩ := Option.isSome_iff_exists.mp (hsrc.present p t hp)
      obtain ⟨nd, hl⟩ := hsrc.loads load rfl h.cells.length p (Option.isSome_of_eq_some hp)
      exact ⟨nd, by simp only [enter, hl], hsrc.sound load rfl _ p t nd hp hl⟩

theorem collect_serves (hsrc : Serves disk src) :
    ∀ {t : Tree ρ n} {nd : Node ε ρ} {fuel : Nat}, n < fuel → NodeRep disk h n nd t →
      collect src h fuel nd = .ok (SortedMap.mapValues Rec.row (records n t)) := by
  induction n with
  | zero =>
    intro t nd fuel hfuel hr
    obtain ⟨fuel, rfl⟩ : ∃ k, fuel = k + 1 := ⟨fuel - 1, by omega⟩
    have hleaf : nd.IsLeafOf (t : Leaf ρ) := hr
    simp only [collect, hleaf.isLeaf, if_true, records]
    have hreads : ReadsAs noDisk (SortedMap.mapValues Rec.row (t : Leaf ρ)) _ := hleaf.collect
    exact hreads.eq_ok noDisk_noPages
  | succ n ih =>
    intro t nd fuel hfuel hr
    obtain ⟨fuel, rfl⟩ : ∃ k, fuel = k + 1 := ⟨fuel - 1, by omega⟩
    have hrel : InnerRel (RepSlot disk (Rep disk h n)) nd.inner t := hr
    have hslots : nd.children.mapM (fun slot => (enter src h slot).bind (collect src h fuel)) =
        .ok (t.children.map fun c => SortedMap.mapValues Rec.row (records n c)) := by
      refine Window.mapM_of_forall₂ hrel.children fun slot c hrs => ?_
      obtain ⟨nd', hent, hnr⟩ := enter_serves hsrc hrs
      rw [hent]
      exact ih (by omega) hnr
    have hflat : SortedMap.mapValues Rec.row (t.children.flatMap (records n)) =
        List.flatten (t.children.map (fun c => SortedMap.mapValues Rec.row (records n c))) := by
      simp only [SortedMap.mapValues, List.flatMap, List.map_flatten, List.map_map]
      rfl
    simp only [collect, hrel.not_isLeaf, Bool.false_eq_true, if_false, records, hslots, hflat]
    rfl

theorem iter_serves (hsrc : Serves disk src) {a : Addr} {t : Tree ρ n}
    (hr : Rep disk h n a t) (count : Option Int) :
    PMap.iter src h ⟨some a, count⟩ = .ok (SortedMap.mapValues Rec.row (records n t)) := by
  obtain ⟨nd, hn, hnr⟩ := hr.node
  simp only [PMap.iter, enter, hn]
  exact collect_serves hsrc hr.height_le hnr

end Serves

/-- Two states of a map hold the same: the rows `iter` gives once loads succeed, and the count. -/
structure SameHeld (disk : Disk ρ) (h : Heap ε ρ) (m : PMap) (h' : Heap ε ρ) (m' : PMap) : Prop where
  count : m'.count = m.count
  rows : ∀ src : Option (LeafSource ε ρ), Serves disk src → m'.iter src h' = m.iter src h

/-- An edit that returns an error leaves what the map held. -/
def FailsWhole (disk : Disk ρ) (h : Heap ε ρ) (m : PMap)
    (r : Except (Fault ε) (Option ρ) × PMap × Heap ε ρ) : Prop :=
  ∀ e, r.1 = .error e → SameHeld disk h m r.2.2 r.2.1

/-- A removal of the key from the map loses its row. -/
def Loses (src : Option (LeafSource ε ρ)) (cap : Cap) (shape : LeafShape) (key : Bytes) (h : Heap ε ρ)
    (m : PMap) : Prop := ∃ root, m.root = some root ∧ LosesRow src cap shape key h root

section Map

variable {h : Heap ε ρ}

variable {m : PMap} {h' : Heap ε ρ} {old : Option ρ}

theorem FailsWhole.of_ok {m' : PMap} :
    FailsWhole disk h m (.ok old, m', h') := fun _ he => by cases he

theorem FailsWhole.of_rep {t : Option ((n : Nat) × Tree ρ n)} {e : Fault ε}
    (hr : RootRep disk h m.root t) (hr' : RootRep disk h' m.root t) :
    FailsWhole disk h m (.error e, m, h') := by
  intro _ _
  refine ⟨rfl, fun src hsrc => ?_⟩
  obtain ⟨root, count⟩ := m
  cases hr with
  | empty => rfl
  | root hrep =>
    cases hr' with
    | root hrep' => exact (iter_serves hsrc hrep' count).trans (iter_serves hsrc hrep count).symm

/-- A removal that loses a row finds it. -/
theorem LosesRow.found (hsrc : SourceOk disk src) {n : Nat} :
    ∀ {t t' : Tree ρ n} {row : Option ρ} {a : Addr}, Rep disk h n a t →
      removeTree cap shape n t key = some (row, t') → LosesRow src cap shape key h a →
      row.isSome = true := by
  induction n with
  | zero =>
    intro t t' row a hr hrem hl
    exact absurd hl (not_losesRow_leaf hr)
  | succ n ih =>
    rintro t t' row a ⟨nd, hn, hrel⟩ hrem hl
    obtain ⟨ct, ct', hi, hsub, -, -⟩ := removeTree_interior hrem
    rw [← show nd.keys = t.keys from hrel.keys] at hi
    obtain ⟨slot, hslot, hrs, -, -⟩ := forall₂_cut hrel.children hi
    have hbelow := ((losesRow_iff hn hslot).mp hl).2
    cases hbelow with
    | inl hat =>
      cases n with
      | succ n => exact absurd hat (not_losesAt_interior hrs)
      | zero =>
        have hloses := hat
        obtain ⟨leaf, k, hent, -⟩ := hat
        cases enter_spec hsrc hrs with
        | inl hok =>
          obtain ⟨leaf', hent', hleaf⟩ := hok
          exact ((losesAt_iff hent' hleaf hsub).mp hloses).1
        | inr hfail =>
          obtain ⟨e, -, hent'⟩ := hfail
          cases hent.symm.trans hent'
    | inr hdeeper =>
      obtain ⟨c, rfl, hl⟩ := hdeeper
      exact ih hrs hsub hl

/-- How `PMap::insert` ends: done, or failed with the tree as it was. -/
inductive InsertFate (disk : Disk ρ) (m : PMap) (tm : TreeMap ρ) :
    Except (Fault ε) (Option ρ) × PMap × Heap ε ρ → Prop where
  | done {old : Option ρ} {m' : PMap} {h' : Heap ε ρ} : InsertFate disk m tm (.ok old, m', h')
  | kept {e : Fault ε} {h' : Heap ε ρ} (hr : RootRep disk h' m.root tm.root) :
      InsertFate disk m tm (.error e, m, h')

variable {tm tm' : TreeMap ρ} {rec : Rec ρ}

theorem insert_fate (hsrc : SourceOk disk src)
    {owned : List Addr} (hc : Counted Node.kids h (m.refs ++ owned))
    (hroot : RootRep disk h m.root tm.root) (hins : tm.insert cap shape key rec = some (old, tm')) :
    InsertFate disk m tm (m.insert src cap shape h key rec) := by
  obtain ⟨root, count⟩ := m
  obtain ⟨troot, tcount⟩ := tm
  cases hroot with
  | empty => exact .done
  | @root n a t hrep =>
    simp only [TreeMap.insert, Option.bind_eq_bind, Option.bind_eq_some_iff] at hins
    obtain ⟨⟨g, old'⟩, hins, -⟩ := hins
    have hpost := nodeInsert_spec hsrc hrep.height_le hc hrep hins
    simp only [PMap.insert]
    revert hpost
    generalize nodeInsert src cap shape key rec (depthBound h) h a = r
    intro hpost
    cases hpost with
    | failed hs he hc' hr' => exact .kept (.root hr')
    | kept he hc' hg hr' => exact .done
    | built ga he hc' hr' => cases ga <;> exact .done

/-- A failed insert leaves what the map held. -/
theorem insert_failsWhole (hsrc : SourceOk disk src)
    {owned : List Addr} (hc : Counted Node.kids h (m.refs ++ owned))
    (hroot : RootRep disk h m.root tm.root) (hins : tm.insert cap shape key rec = some (old, tm')) :
    FailsWhole disk h m (m.insert src cap shape h key rec) := by
  have hfate := insert_fate hsrc hc hroot hins
  revert hfate
  generalize m.insert src cap shape h key rec = r
  intro hfate
  cases hfate with
  | done => exact .of_ok
  | kept hr' => exact .of_rep hroot hr'

/-- A root without separators has no child, or one that is resident. -/
theorem root_child {n : Nat} {nd : Node ε ρ} {t : Tree ρ n} (hnr : NodeRep disk h n nd t)
    (hlone : Lone nd) (hkeys : nd.keys.isEmpty = true) :
    nd.children[0]? = none ∨ ∃ c, nd.children[0]? = some (.resident c) := by
  cases n with
  | zero =>
    have hleaf : nd.IsLeafOf (t : Leaf ρ) := hnr
    rw [hleaf.children]
    exact .inl rfl
  | succ n =>
    have hrel : InnerRel (RepSlot disk (Rep disk h n)) nd.inner t := hnr
    have hlen : nd.children.length = nd.keys.length + 1 := hrel.len
    rw [List.isEmpty_iff.mp hkeys] at hlen
    exact .inr (hlone hlen)

/-- A tree less the row of a key, no leaf merged; the count is not lowered. -/
def TreeMap.dropRow (tm : TreeMap ρ) (key : Bytes) : TreeMap ρ :=
  { tm with root := tm.root.map fun t => ⟨t.1, PMap.dropRow t.1 t.2 key⟩ }

/-- How `PMap::remove` ends. -/
inductive MapFate (disk : Disk ρ) (src : Option (LeafSource ε ρ)) (cap : Cap) (shape : LeafShape)
    (key : Bytes) (h : Heap ε ρ) (m : PMap) (tm : TreeMap ρ) :
    Except (Fault ε) (Option ρ) × PMap × Heap ε ρ → Prop where
  | done {old : Option ρ} {m' : PMap} {h' : Heap ε ρ} (hl : ¬Loses src cap shape key h m) :
      MapFate disk src cap shape key h m tm (.ok old, m', h')
  | kept {e : Fault ε} {h' : Heap ε ρ} (hr : RootRep disk h' m.root tm.root)
      (hl : ¬Loses src cap shape key h m) : MapFate disk src cap shape key h m tm (.error e, m, h')
  | lost {e : Fault ε} {h' : Heap ε ρ} (hr : RootRep disk h' m.root (tm.dropRow key).root)
      (hl : Loses src cap shape key h m) : MapFate disk src cap shape key h m tm (.error e, m, h')

theorem remove_fate (hsrc : SourceOk disk src)
    {owned : List Addr} (hc : Counted Node.kids h (m.refs ++ owned))
    (hroot : RootRep disk h m.root tm.root) (hrem : tm.remove cap shape key = some (old, tm')) :
    MapFate disk src cap shape key h m tm (m.remove src cap shape h key) := by
  obtain ⟨root, count⟩ := m
  obtain ⟨troot, tcount⟩ := tm
  cases hroot with
  | empty =>
    refine .done ?_
    rintro ⟨root, hroot, -⟩
    cases hroot
  | @root n a t hrep =>
    simp only [TreeMap.remove, Option.bind_eq_bind, Option.bind_eq_some_iff] at hrem
    obtain ⟨⟨row, t'⟩, hrem, -⟩ := hrem
    have hloses : Loses src cap shape key h ⟨some a, count⟩ ↔ LosesRow src cap shape key h a := by
      constructor
      · rintro ⟨root, hroot, hl⟩
        cases hroot
        exact hl
      · exact fun hl => ⟨a, rfl, hl⟩
    have hpost := nodeRemove_spec hsrc hrep.height_le hc hrep hrem
    have hfate := nodeRemove_fate hsrc hrep.height_le hc hrep hrem
    have hlone : ∀ row b h' x, nodeRemove src cap shape key (depthBound h) h a =
        (.ok (some row), b, h') → h'.node? b = some x → Lone x := fun _ _ _ _ => nodeRemove_lone
    simp only [PMap.remove]
    revert hpost hfate hlone
    generalize nodeRemove src cap shape key (depthBound h) h a = r
    intro hpost hfate hlone
    cases hpost with
    | failed hs he hc' =>
      cases hfate with
      | kept hr' hl => exact .kept (.root hr') (hloses.not.mpr hl)
      | lost hr' hl => exact .lost (.root hr') (hloses.mpr hl)
    | @done h' b he hc' hr' hd =>
      cases hfate with
      | done hl =>
        have hl := hloses.not.mpr hl
        cases row with
        | none => exact .done hl
        | some row =>
          obtain ⟨nd, hn, hnr⟩ := hr'.node
          dsimp only
          rw [hn]
          dsimp only
          split
          · rename_i hkeys
            cases root_child hnr (hlone row b h' nd rfl hn) hkeys with
            | inl hnone =>
              rw [hnone]
              exact .done hl
            | inr hsome =>
              obtain ⟨c, h0⟩ := hsome
              rw [h0]
              exact .done hl
          · exact .done hl

/-- A remove that loses a row leaves one row less. -/
theorem Loses.not_failsWhole (hsrc : SourceOk disk src)
    {e : Fault ε} (hroot : RootRep disk h m.root tm.root)
    (hrem : tm.remove cap shape key = some (old, tm'))
    (hr' : RootRep disk h' m.root (tm.dropRow key).root) (hl : Loses src cap shape key h m) :
    ¬FailsWhole disk h m (.error e, m, h') := by
  intro hwhole
  obtain ⟨root, count⟩ := m
  obtain ⟨troot, tcount⟩ := tm
  obtain ⟨a, rfl, hl⟩ := hl
  cases hroot with
  | @root n a t hrep =>
    simp only [TreeMap.remove, Option.bind_eq_bind, Option.bind_eq_some_iff] at hrem
    obtain ⟨⟨row, t'⟩, hrem, -⟩ := hrem
    obtain ⟨row, rfl⟩ := Option.isSome_iff_exists.mp (hl.found hsrc hrep hrem)
    have hlen := length_records_dropRow hrem
    have hserves : Serves disk (some (diskSource disk : LeafSource ε ρ)) := diskSource_serves disk
    have hsame := (hwhole _ rfl).rows _ hserves
    cases hr' with
    | root hrep' =>
      dsimp only at hsame
      rw [iter_serves hserves hrep, iter_serves hserves hrep'] at hsame
      have hrows := congrArg List.length (Except.ok.inj hsame)
      simp only [SortedMap.mapValues, List.length_map] at hrows
      omega

/-- A remove keeps what the map held when it fails, unless it loses the row. -/
theorem remove_failsWhole_iff (hsrc : SourceOk disk src)
    {owned : List Addr} (hc : Counted Node.kids h (m.refs ++ owned))
    (hroot : RootRep disk h m.root tm.root) (hrem : tm.remove cap shape key = some (old, tm')) :
    FailsWhole disk h m (m.remove src cap shape h key) ↔ ¬Loses src cap shape key h m := by
  have hfate := remove_fate hsrc hc hroot hrem
  revert hfate
  generalize m.remove src cap shape h key = r
  intro hfate
  cases hfate with
  | done hl => exact iff_of_true .of_ok hl
  | kept hr' hl => exact iff_of_true (.of_rep hroot hr') hl
  | lost hr' hl => exact iff_of_false (hl.not_failsWhole hsrc hroot hrem hr') (not_not_intro hl)

end Map

/-- Edits that fail leave the rows and the count of the map, but for the removes that lose a row: the
    path to the key's leaf is edited in place, the leaf is too small without the row, and the sibling
    to merge it with fails to load. -/
theorem failed_edits_iff (hcap : cap.WellFormed) (hsrc : SourceOk disk src) {tm : TreeMap ρ}
    (hok : tm.Ok cap shape) {h : Heap ε ρ} {m : PMap} {owned : List Addr}
    (hc : Counted Node.kids h (m.refs ++ owned)) (hroot : RootRep disk h m.root tm.root) :
    (∀ key rec, RecordOk cap shape key rec.weight →
        FailsWhole disk h m (m.insert src cap shape h key rec)) ∧
      ∀ key, FailsWhole disk h m (m.remove src cap shape h key) ↔ ¬Loses src cap shape key h m := by
  constructor
  · intro key rec hrec
    obtain ⟨tm', hins, -⟩ := TreeMap.insert_spec (hcap.sepFits shape) hok hrec
    exact insert_failsWhole hsrc hc hroot hins
  · intro key
    obtain ⟨tm', hrem, -⟩ := TreeMap.remove_spec hok key
    exact remove_failsWhole_iff hsrc hc hroot hrem

/-! Three rows in two leaves, the second on disk: the first is too small without a row. -/

def threeRows : TreeMap Nat :=
  ⟨some ⟨1, (⟨[[3]], [([([1], ⟨10, 80⟩), ([2], ⟨20, 80⟩)] : Leaf Nat), ([([3], ⟨30, 80⟩)] : Leaf Nat)]⟩ :
    Inner (Leaf Nat))⟩, 3⟩

def threeRowsDisk : Disk Nat := fun p => if p.page = 5 then some [([3], ⟨30, 80⟩)] else none

def threeRowsHeap : Heap Unit Nat :=
  (((⟨[]⟩ : Heap Unit Nat).alloc (.leaf [([1], ⟨10, 80⟩), ([2], ⟨20, 80⟩)])).2.alloc
    (.interior ⟨[[3]], [.resident 0, .onDisk ⟨5, []⟩]⟩)).2

/-- The source that fails. -/
def noLoads : LeafSource Unit Nat := fun _ _ => .error ()

theorem noLoads_sourceOk : SourceOk threeRowsDisk (some noLoads) where
  present _ _ _ := rfl
  sound := by
    intro load hload k p es nd _ hnd
    cases hload
    cases hnd

theorem threeRows_rep : RootRep threeRowsDisk threeRowsHeap (some 1) threeRows.root := by
  have hleaf : Rep threeRowsDisk threeRowsHeap 0 0
      ([([1], ⟨10, 80⟩), ([2], ⟨20, 80⟩)] : Leaf Nat) := Rep.leaf rfl (Node.leaf_isLeafOf _)
  have hslots : List.Forall₂ (RepSlot threeRowsDisk (Rep threeRowsDisk threeRowsHeap 0))
      [.resident 0, .onDisk ⟨5, []⟩]
      [([([1], ⟨10, 80⟩), ([2], ⟨20, 80⟩)] : Leaf Nat), ([([3], ⟨30, 80⟩)] : Leaf Nat)] :=
    .cons hleaf (.cons rfl .nil)
  exact .root (Rep.inner rfl ⟨rfl, rfl, hslots⟩)

theorem threeRows_counted : Counted Node.kids threeRowsHeap ([1] ++ []) := by
  have hleaf : Counted Node.kids (⟨[]⟩ : Heap Unit Nat)
      (Node.kids (.leaf [([1], ⟨10, 80⟩), ([2], ⟨20, 80⟩)] : Node Unit Nat) ++ []) := fun _ => rfl
  exact hleaf.alloc.alloc

theorem threeRows_ok : threeRows.Ok (Cap.plain 256) ⟨0, 0⟩ where
  count := rfl
  tree := by
    intro n t ht
    cases ht
    have hfirst : Ordered 0 none (some [3]) ([([1], ⟨10, 80⟩), ([2], ⟨20, 80⟩)] : Leaf Nat) := by
      refine ⟨List.pairwise_pair.mpr (by decide), fun e he => ⟨fun _ ha => (by cases ha), fun c hc => ?_⟩⟩
      cases hc
      revert e
      decide
    have hsecond : Ordered 0 (some [3]) none ([([3], ⟨30, 80⟩)] : Leaf Nat) := by
      refine ⟨List.pairwise_singleton _ _, fun e he => ⟨fun c hc => ?_, fun _ ha => (by cases ha)⟩⟩
      cases hc
      rw [List.mem_singleton.mp he]
    have hcap : CapOk (Cap.plain 256) ⟨0, 0⟩ := ⟨by decide, by decide⟩
    have hsep : SepOk (Cap.plain 256) ⟨0, 0⟩ [3] := by
      unfold SepOk
      decide
    have hfits : Fits (Cap.plain 256) ⟨0, 0⟩ 1
        (⟨[[3]], [[([1], ⟨10, 80⟩), ([2], ⟨20, 80⟩)], [([3], ⟨30, 80⟩)]]⟩ : Inner (Leaf Nat)) := by
      refine ⟨by decide, rfl, fun s hs => List.mem_singleton.mp hs ▸ hsep, fun c hc => ?_⟩
      rcases List.mem_pair.mp hc with rfl | rfl
      · exact ⟨by decide, by decide⟩
      · exact ⟨by decide, by decide⟩
    exact ⟨hcap, ⟨KeyChain.below_none_left _, hfirst, KeyChain.below_none_right _, hsecond⟩, hfits⟩

theorem failed_edits_iff_threeRows :
    (∀ key rec, RecordOk (Cap.plain 256) ⟨0, 0⟩ key rec.weight → FailsWhole threeRowsDisk threeRowsHeap
        ⟨some 1, some 3⟩ (PMap.insert (some noLoads) (Cap.plain 256) ⟨0, 0⟩ threeRowsHeap
          ⟨some 1, some 3⟩ key rec)) ∧
      ∀ key, FailsWhole threeRowsDisk threeRowsHeap ⟨some 1, some 3⟩
          (PMap.remove (some noLoads) (Cap.plain 256) ⟨0, 0⟩ threeRowsHeap ⟨some 1, some 3⟩ key) ↔
        ¬Loses (some noLoads) (Cap.plain 256) ⟨0, 0⟩ key threeRowsHeap ⟨some 1, some 3⟩ :=
  failed_edits_iff (.inl rfl) noLoads_sourceOk threeRows_ok threeRows_counted threeRows_rep

/-- The first row is gone, and still counted, after a removal that returned an error. -/
theorem failed_remove_drops_row :
    let served := some (diskSource threeRowsDisk)
    let r := PMap.remove (some noLoads) (Cap.plain 256) ⟨0, 0⟩ threeRowsHeap ⟨some 1, some 3⟩ [1]
    r.1 = .error (.err ()) ∧ r.2.1.count = some 3 ∧
      PMap.iter served threeRowsHeap ⟨some 1, some 3⟩ = .ok [([1], 10), ([2], 20), ([3], 30)] ∧
      r.2.1.iter served r.2.2 = .ok [([2], 20), ([3], 30)] := by
  decide +kernel

end Jed.PMap
