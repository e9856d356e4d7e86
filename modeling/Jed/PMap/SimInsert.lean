import Jed.PMap.Rep

/-!
# The shared-node insert computes the tree-value insert

`nodeInsert` on a subtree that represents `t` leaves nodes that represent what `insertTree` computes
from `t`, whether it edits the path in place or copies it, keeps the strong counts exact, and
changes nothing any other owner sees. A failed load leaves the subtree as it was.
-/

namespace Jed.PMap

open Arc

variable {ε ρ : Type} {disk : Disk ρ} {src : Option (LeafSource ε ρ)} {cap : Cap}
  {shape : LeafShape}

/-- What an insert into the subtree `t` at `a` leaves, next to the references `owned` by others. -/
inductive InsertPost (disk : Disk ρ) (owned : List Addr)
    (h : Heap ε ρ) {n : Nat} (a : Addr) (t : Tree ρ n) (g : Grown (Tree ρ n)) (old : Option ρ) :
    Except (Fault ε) (Ins × Option ρ) × Heap ε ρ → Prop where
  | kept {h' : Heap ε ρ} {t' : Tree ρ n} (he : Extends Node.kids owned h h')
      (hc : Counted Node.kids h' (a :: owned)) (hg : g = .whole t') (hr : Rep disk h' n a t') :
      InsertPost disk owned h a t g old (.ok (.kept, old), h')
  | built (ga : Grown Addr) {h' : Heap ε ρ} (he : Extends Node.kids owned h h')
      (hc : Counted Node.kids h' (ga.nodes ++ a :: owned)) (hr : ga.Rel (Rep disk h' n) g) :
      InsertPost disk owned h a t g old (.ok (.built ga, old), h')
  | failed {h' : Heap ε ρ} {e : ε} (hs : HasPages disk) (he : Extends Node.kids owned h h')
      (hc : Counted Node.kids h' (a :: owned)) (hr : Rep disk h' n a t) :
      InsertPost disk owned h a t g old (.error (.err e), h')

/-- What an insert into a child held by a local variable leaves. -/
inductive LocalPost (disk : Disk ρ) (owned : List Addr)
    (h : Heap ε ρ) {n : Nat} (g : Grown (Tree ρ n)) (old : Option ρ) :
    Except (Fault ε) (Grown Addr × Option ρ) × Heap ε ρ → Prop where
  | built (ga : Grown Addr) {h' : Heap ε ρ} (he : Extends Node.kids owned h h')
      (hc : Counted Node.kids h' (ga.nodes ++ owned)) (hr : ga.Rel (Rep disk h' n) g) :
      LocalPost disk owned h g old (.ok (ga, old), h')
  | failed {h' : Heap ε ρ} {e : ε} (hs : HasPages disk) (he : Extends Node.kids owned h h')
      (hc : Counted Node.kids h' owned) : LocalPost disk owned h g old (.error (.err e), h')

variable {h : Heap ε ρ} {owned : List Addr} {es : Leaf ρ}

/-- A load hands over a fresh reference to the leaf on the page, or fails and changes nothing. -/
theorem loadLeaf_spec (hsrc : SourceOk disk src)
    (hc : Counted Node.kids h owned) {p : PageRef} (hp : disk p = some es) :
    (∃ a h', loadLeaf src h p = (.ok a, h') ∧ Counted Node.kids h' (a :: owned) ∧
        (∀ live, Extends Node.kids live h h') ∧ Rep disk h' 0 a es) ∨
      ∃ e, loadLeaf src h p = (.error (.err e), h) ∧ HasPages disk := by
  obtain ⟨load, rfl⟩ := Option.isSome_iff_exists.mp (hsrc.present p es hp)
  unfold loadLeaf
  dsimp only
  cases hl : load h.cells.length p with
  | error e => exact .inr ⟨e, rfl, p, by simp [hp]⟩
  | ok nd =>
    have hleaf := hsrc.sound load rfl _ p es nd hp hl
    refine .inl ⟨_, _, rfl, ?_, fun live => .alloc live h nd, nd, ?_, hleaf⟩
    · have h0 : Counted Node.kids h (nd.kids ++ owned) := by
        rw [hleaf.kids]
        exact hc
      exact h0.alloc
    · simp [Store.node?, Store.cell_alloc]

variable {slot : Child}

/-- `child` hands over an owned reference to what the slot represents. -/
theorem child_spec (hsrc : SourceOk disk src) (hc : Counted Node.kids h owned) {n : Nat} {t : Tree ρ n}
    (hr : RepSlot disk (Rep disk h n) slot t) (hlive : ∀ a ∈ slot.addr?, ∃ c, h.cell a = some c) :
    (∃ a h', child src h slot = (.ok a, h') ∧ Counted Node.kids h' (a :: owned) ∧
        (∀ live, Extends Node.kids live h h') ∧ Rep disk h' n a t) ∨
      ∃ e, child src h slot = (.error (.err e), h) ∧ HasPages disk := by
  cases slot with
  | resident a =>
    obtain ⟨c, hcell⟩ := hlive a rfl
    refine .inl ⟨a, _, rfl, hc.clone hcell, fun live => .clone live h a, ?_⟩
    exact Rep.extends hr (.clone [a] h a) (by simp)
  | onDisk p =>
    cases n with
    | zero => exact loadLeaf_spec hsrc hc hr
    | succ n => exact hr.elim

variable {a : Addr}

theorem release_spec (hc : Counted Node.kids h (a :: owned)) :
    Counted Node.kids (release h a) owned ∧ Extends Node.kids owned h (release h a) :=
  drop_spec hc

theorem releaseSlot_spec (hc : Counted Node.kids h (slot.addr?.toList ++ owned)) :
    Counted Node.kids (releaseSlot h slot) owned ∧ Extends Node.kids owned h (releaseSlot h slot) :=
  dropAll_spec h _ hc

theorem Grown.Rel.extends {n : Nat} {h' : Heap ε ρ} {ga : Grown Addr} {g : Grown (Tree ρ n)}
    {live : List Addr} (hr : ga.Rel (Rep disk h n) g) (he : Extends Node.kids live h h')
    (hl : ∀ a ∈ ga.nodes, a ∈ live) : ga.Rel (Rep disk h' n) g :=
  hr.mono (fun a ha _ hrep => Rep.extends hrep he (hl a ha))

theorem insertLocal_spec {go : Heap ε ρ → Addr → Except (Fault ε) (Ins × Option ρ) × Heap ε ρ}
    {n : Nat} {c : Addr} {t : Tree ρ n} {g : Grown (Tree ρ n)}
    {old : Option ρ} (hgo : InsertPost disk owned h c t g old (go h c)) :
    LocalPost disk owned h g old (insertLocal go h c) := by
  unfold insertLocal
  revert hgo
  generalize go h c = r
  intro hgo
  cases hgo with
  | kept he hc hg hr =>
    subst hg
    exact .built (.whole c) he hc hr
  | failed hs he hc hr =>
    obtain ⟨h1, h2⟩ := release_spec hc
    exact .failed hs (he.trans h2) h1
  | built ga he hc hr =>
    obtain ⟨h1, h2⟩ := release_spec (hc.perm List.perm_middle)
    have hr' := hr.extends h2 (fun a ha => List.mem_append_left _ ha)
    have he' := he.trans (h2.mono (fun a ha => List.mem_append_right _ ha))
    cases ga with
    | whole b => exact .built (.whole b) he' h1 hr'
    | split l sep r => exact .built (.split l sep r) he' h1 hr'

variable {key : Bytes} {rec : Rec ρ} {nd : Node ε ρ} {g : Grown (Tree ρ 0)}

/-- The three ways a leaf insert ends, from the records it starts with. -/
theorem insertLeafInPlace_spec
    (hc : Counted Node.kids h (a :: owned)) (hn : h.node? a = some nd)
    (hleaf : nd.IsLeafOf es) (hdirty : nd.page.page = 0) (hu : h.isUnique a)
    {old : Option ρ}
    (hins : insertTree cap shape 0 es key rec = some (g, old)) :
    InsertPost disk owned h (n := 0) a es g old
      (insertLeafInPlace cap shape h a nd key rec) := by
  obtain ⟨-, hout, hback⟩ := borrow_spec hc hn hu
  have hkids : nd.kids = [] := hleaf.kids
  have hpacked := hleaf.dirty hdirty
  have hcount : Counted Node.kids (h.checkOut a) owned := by
    have := (borrow_spec hc hn hu).1
    rwa [hkids] at this
  simp only [insertTree] at hins
  unfold insertLeafInPlace
  rw [hleaf.zip hpacked]
  generalize leafInsert es key rec = edit at hins ⊢
  obtain ⟨es', i, old'⟩ := edit
  dsimp only at hins ⊢
  obtain ⟨rfl, rfl⟩ := Prod.ext_iff.mp (Option.some.inj hins)
  split
  · rename_i hfit
    have hwhole : buildLeaf es' cap shape (some i) = .whole es' := by
      unfold buildLeaf leafSplitPoint
      simp only [Bool.or_eq_true, decide_eq_true_eq] at hfit
      simp only [List.length_map]
      rw [if_pos (by simpa using hfit)]
    obtain ⟨h1, h2, h3, -⟩ := hback (h.checkOut a)
      { nd with keys := es'.map Prod.fst, recs := es'.map Prod.snd } owned
      (by simpa [Node.kids, hleaf.children] using hcount) (.refl _ _)
    refine .kept h2 h1 hwhole (Rep.leaf h3 ⟨hleaf.children, fun _ => ⟨rfl, rfl⟩, fun p hp => ?_⟩)
    rw [hpacked] at hp
    cases hp
  · obtain ⟨h1, h2, -, -⟩ := hback (h.checkOut a) nd.emptied owned (by simpa using hcount)
      (.refl _ _)
    obtain ⟨a1, a2, a3⟩ := allocLeaves_spec disk _ (buildLeaf es' cap shape (some i)) h1
    exact .built _ (h2.trans (a2 owned)) a1 a3

theorem insertLeafCopy_spec
    (hc : Counted Node.kids h (a :: owned)) (hleaf : nd.IsLeafOf es)
    {old : Option ρ}
    (hins : insertTree cap shape 0 es key rec = some (g, old)) :
    InsertPost disk owned h (n := 0) a es g old (insertLeafCopy cap shape h nd key rec) := by
  simp only [insertTree] at hins
  unfold insertLeafCopy
  rw [hleaf.decodedParts]
  dsimp only
  generalize leafInsert es key rec = edit at hins ⊢
  obtain ⟨es', i, old'⟩ := edit
  dsimp only at hins ⊢
  obtain ⟨rfl, rfl⟩ := Prod.ext_iff.mp (Option.some.inj hins)
  obtain ⟨a1, a2, a3⟩ := allocLeaves_spec disk _ (buildLeaf es' cap shape (some i)) hc
  exact .built _ (a2 owned) a1 a3

/-- The parent an insert into child `i` leaves, from what the insert left of the child. -/
def spliceChild {τ : Type} (cap : Cap) (t : Inner τ) (i : Nat) : Grown τ → Option (Grown (Inner τ))
  | .whole c => some (.whole (t.setChild i c))
  | .split l sep r => buildInterior (t.splitChild i l sep r) cap (some i)

theorem insertTree_interior {n : Nat} {t : Inner (Tree ρ n)} {g : Grown (Tree ρ (n + 1))} {old : Option ρ}
    (h : insertTree cap shape (n + 1) t key rec = some (g, old)) :
    ∃ c sub, t.children[childSlot t.keys key]? = some c ∧
      insertTree cap shape n c key rec = some (sub, old) ∧
      spliceChild cap t (childSlot t.keys key) sub = some g := by
  simp only [insertTree, Option.bind_eq_bind, Option.bind_eq_some_iff] at h
  obtain ⟨c, hc, ⟨sub, old'⟩, hsub, h⟩ := h
  cases sub with
  | whole c' =>
    obtain ⟨rfl, rfl⟩ := Prod.ext_iff.mp (Option.some.inj h)
    exact ⟨c, _, hc, hsub, rfl⟩
  | split l sep r =>
    simp only [Option.bind_eq_some_iff] at h
    obtain ⟨g', hg', h⟩ := h
    obtain ⟨rfl, rfl⟩ := Prod.ext_iff.mp (Option.some.inj h)
    exact ⟨c, _, hc, hsub, hg'⟩

/-- What an insert into the child a slot holds leaves; the slot itself is still held. -/
inductive SlotPost (disk : Disk ρ) (owned : List Addr)
    (h : Heap ε ρ) {n : Nat} (slot : Child) (t : Tree ρ n) (g : Grown (Tree ρ n)) (old : Option ρ) :
    Except (Fault ε) (Ins × Option ρ) × Heap ε ρ → Prop where
  | kept {h' : Heap ε ρ} {t' : Tree ρ n} (he : Extends Node.kids owned h h')
      (hc : Counted Node.kids h' (slot.addr?.toList ++ owned)) (hg : g = .whole t')
      (hr : RepSlot disk (Rep disk h' n) slot t') :
      SlotPost disk owned h slot t g old (.ok (.kept, old), h')
  | built (ga : Grown Addr) {h' : Heap ε ρ} (he : Extends Node.kids owned h h')
      (hc : Counted Node.kids h' (slot.addr?.toList ++ (ga.nodes ++ owned)))
      (hr : ga.Rel (Rep disk h' n) g) :
      SlotPost disk owned h slot t g old (.ok (.built ga, old), h')
  | failed {h' : Heap ε ρ} {e : ε} (hs : HasPages disk) (he : Extends Node.kids owned h h')
      (hc : Counted Node.kids h' (slot.addr?.toList ++ owned))
      (hr : RepSlot disk (Rep disk h' n) slot t) :
      SlotPost disk owned h slot t g old (.error (.err e), h')

section Interior

variable {go : Heap ε ρ → Addr → Except (Fault ε) (Ins × Option ρ) × Heap ε ρ} {n : Nat}
  {ct : Tree ρ n} {sub : Grown (Tree ρ n)} {old : Option ρ}

/-- The recursive call does its job on any reference to the child `ct`. -/
def GoInserts (disk : Disk ρ)
    (go : Heap ε ρ → Addr → Except (Fault ε) (Ins × Option ρ) × Heap ε ρ) {n : Nat} (ct : Tree ρ n)
    (sub : Grown (Tree ρ n)) (old : Option ρ) : Prop :=
  ∀ h c owned, Counted Node.kids h (c :: owned) → Rep disk h n c ct →
    InsertPost disk owned h c ct sub old (go h c)

variable {h : Heap ε ρ} {owned : List Addr} {slot : Child}

theorem insertSlot_spec (hsrc : SourceOk disk src) (hgo : GoInserts disk go ct sub old)
    (hc : Counted Node.kids h (slot.addr?.toList ++ owned))
    (hr : RepSlot disk (Rep disk h n) slot ct) :
    SlotPost disk owned h slot ct sub old (insertSlot go src h slot) := by
  cases slot with
  | resident c =>
    have hpost := hgo h c owned hc hr
    simp only [insertSlot]
    revert hpost
    generalize go h c = r
    intro hpost
    cases hpost with
    | kept he hc hg hr =>
      refine .kept he ?_ hg hr
      exact hc
    | built ga he hc hr =>
      refine .built ga he ?_ hr
      exact hc.perm List.perm_middle
    | failed hs he hc hr =>
      refine .failed hs he ?_ hr
      exact hc
  | onDisk p =>
    have hload : (∃ a h', loadLeaf src h p = (.ok a, h') ∧ Counted Node.kids h' (a :: owned) ∧
        (∀ live, Extends Node.kids live h h') ∧ Rep disk h' n a ct) ∨
        ∃ e, loadLeaf src h p = (.error (.err e), h) ∧ HasPages disk := by
      cases n with
      | zero => exact loadLeaf_spec hsrc hc hr
      | succ n => exact hr.elim
    simp only [insertSlot]
    rcases hload with ⟨a, h', heq, hc', he', hr'⟩ | ⟨e, heq, hs⟩
    · rw [heq]
      dsimp only
      have hpost := insertLocal_spec (hgo h' a owned hc' hr')
      revert hpost
      generalize insertLocal go h' a = r
      intro hpost
      cases hpost with
      | built ga he hc hr => exact .built ga ((he' owned).trans he) hc hr
      | failed hs he hc => exact .failed hs ((he' owned).trans he) hc hr
    · rw [heq]
      exact .failed hs (.refl _ _) hc hr

/-- What an insert through a borrowed parent leaves. -/
inductive BorrowPost (disk : Disk ρ) (owned : List Addr)
    (h : Heap ε ρ) {n : Nat} (t : Inner (Tree ρ n)) (g : Grown (Inner (Tree ρ n))) (old : Option ρ) :
    Except (Fault ε) (Ins × Option ρ) × Node ε ρ × Heap ε ρ → Prop where
  | kept {h' : Heap ε ρ} {nd' : Node ε ρ} {t' : Inner (Tree ρ n)}
      (he : Extends Node.kids owned h h') (hc : Counted Node.kids h' (nd'.kids ++ owned))
      (hg : g = .whole t') (hr : InnerRel (RepSlot disk (Rep disk h' n)) nd'.inner t') :
      BorrowPost disk owned h t g old (.ok (.kept, old), nd', h')
  | built (ga : Grown Addr) {h' : Heap ε ρ} {nd' : Node ε ρ} (he : Extends Node.kids owned h h')
      (hc : Counted Node.kids h' (nd'.kids ++ (ga.nodes ++ owned)))
      (hr : ga.Rel (Rep disk h' (n + 1)) g) :
      BorrowPost disk owned h t g old (.ok (.built ga, old), nd', h')
  | failed {h' : Heap ε ρ} {nd' : Node ε ρ} {e : ε} (hs : HasPages disk)
      (he : Extends Node.kids owned h h') (hc : Counted Node.kids h' (nd'.kids ++ owned))
      (hr : InnerRel (RepSlot disk (Rep disk h' n)) nd'.inner t) :
      BorrowPost disk owned h t g old (.error (.err e), nd', h')

variable {i : Nat} {g : Grown (Inner (Tree ρ n))}

/-- Splicing related results into related parents gives related parents, which hold the results and
    what the other slots held. -/
theorem spliceChild_rel {S S' : Child → Tree ρ n → Prop} {t : Inner Child} {u : Inner (Tree ρ n)}
    {ga : Grown Addr} (hrel : InnerRel S t u)
    (hlt : i < t.children.length)
    (hpre : List.Forall₂ S' (t.children.take i) (u.children.take i))
    (hpost : List.Forall₂ S' (t.children.drop (i + 1)) (u.children.drop (i + 1)))
    (hr : ga.Rel (fun a ct => S' (.resident a) ct) sub) (hg : spliceChild cap u i sub = some g) :
    ∃ gc, spliceChild cap t i (ga.map .resident) = some gc ∧ gc.Rel (InnerRel S') g ∧
      ∀ owned, (ga.nodes ++ (others t.children i ++ owned)).Perm
        (gc.nodes.flatMap (fun t => kidsOf t.children) ++ owned) := by
  match ga, sub, hr with
  | .whole b, .whole c', hr =>
    obtain rfl := Option.some.inj hg
    refine ⟨_, rfl, hrel.setChild hlt hpre hr hpost, fun owned => ?_⟩
    simp only [Grown.nodes, List.flatMap_cons, List.flatMap_nil, List.append_nil]
    exact kidsOf_set hlt (.resident b) owned
  | .split l sep r, .split cl csep cr, ⟨hl, hsep, hr'⟩ =>
    obtain rfl := hsep
    have hnew : InnerRel S' (t.splitChild i (.resident l) sep (.resident r))
        (u.splitChild i cl sep cr) := hrel.splitChild hlt hpre hl hr' hpost
    have hbuild := buildInterior_rel hnew cap (some i)
    dsimp only [spliceChild] at hg
    rw [hg] at hbuild
    dsimp only [spliceChild, Grown.map]
    generalize hgc : buildInterior (t.splitChild i (.resident l) sep (.resident r)) cap (some i) = gc
      at hbuild
    cases hbuild with
    | some hrg =>
      refine ⟨_, rfl, hrg, fun owned => ?_⟩
      rw [buildInterior_kids hgc]
      exact kidsOf_split hlt (.resident l) (.resident r) owned

theorem insertBorrowed_spec (hsrc : SourceOk disk src) (hgo : GoInserts disk go ct sub old)
    {nd : Node ε ρ} {t : Inner (Tree ρ n)}
    (hc : Counted Node.kids h (nd.kids ++ owned))
    (hrel : InnerRel (RepSlot disk (Rep disk h n)) nd.inner t) (hi : t.children[i]? = some ct)
    (hslot : nd.children[i]? = some slot) (hg : spliceChild cap t i sub = some g) :
    BorrowPost disk owned h t g old (insertBorrowed go src cap h nd i slot) := by
  obtain ⟨slot', hs', hrs, hpre, hpost⟩ := forall₂_cut hrel.children hi
  obtain rfl : slot = slot' := Option.some.inj (hslot.symm.trans hs')
  obtain ⟨hlt, -⟩ := List.getElem?_eq_some_iff.mp hslot
  have hsame : nd.inner.setChild i slot = nd.inner := Inner.setChild_self hslot
  -- whatever the child's insert does, the other slots are kept for their owners
  have hothers : ∀ {h' : Heap ε ρ}, Extends Node.kids (others nd.children i ++ owned) h h' →
      Extends Node.kids owned h h' ∧
        List.Forall₂ (RepSlot disk (Rep disk h' n)) (nd.inner.children.take i) (t.children.take i) ∧
        List.Forall₂ (RepSlot disk (Rep disk h' n)) (nd.inner.children.drop (i + 1))
          (t.children.drop (i + 1)) :=
    fun he => ⟨he.mono (fun a ha => List.mem_append_right _ ha),
      slots_extends hpre he kidsOf_take_mem, slots_extends hpost he kidsOf_drop_mem⟩
  have hsub := insertSlot_spec hsrc hgo (hc.perm (kidsOf_open hslot owned).symm) hrs
  unfold insertBorrowed
  revert hsub
  generalize insertSlot go src h slot = r
  intro hsub
  cases hsub with
  | kept he hc' hg' hr =>
    subst hg'
    obtain ⟨he', hpre', hpost'⟩ := hothers he
    refine .kept he' (hc'.perm (kidsOf_open hslot owned)) (Option.some.inj hg).symm ?_
    have := hrel.setChild hlt hpre' hr hpost'
    rwa [hsame] at this
  | failed hs he hc' hr =>
    obtain ⟨he', hpre', hpost'⟩ := hothers he
    refine .failed hs he' (hc'.perm (kidsOf_open hslot owned)) ?_
    have := hrel.setChild hlt hpre' hr hpost'
    rwa [hsame, Inner.setChild_self hi] at this
  | @built ga h' he hc' hr =>
    obtain ⟨hc2, he2⟩ := releaseSlot_spec hc'
    have hr2 := hr.extends he2 (fun a ha => List.mem_append_left _ ha)
    obtain ⟨he', hpre', hpost'⟩ :=
      hothers (he.trans (he2.mono (fun a ha => List.mem_append_right _ ha)))
    match ga, sub, hr2 with
    | .whole b, .whole c', hr2 =>
      refine .kept he' (hc2.perm ?_) (Option.some.inj hg).symm (hrel.setChild hlt hpre' hr2 hpost')
      exact kidsOf_set hlt (.resident b) owned
    | .split l sep r, .split cl csep cr, hr2 =>
      have hnew : InnerRel (RepSlot disk (Rep disk (releaseSlot h' slot) n))
          (nd.inner.splitChild i (.resident l) sep (.resident r)) (t.splitChild i cl csep cr) := by
        obtain ⟨hl, rfl, hr'⟩ := hr2
        exact hrel.splitChild hlt hpre' hl hr' hpost'
      obtain ⟨gc, hgc, hrg, hperm⟩ := spliceChild_rel hrel hlt hpre' hpost' hr2 hg
      dsimp only [Ins.built]
      split
      · rename_i hfit
        refine .kept he' (hc2.perm (kidsOf_split hlt (.resident l) (.resident r) owned)) ?_ hnew
        dsimp only [spliceChild] at hg
        unfold buildInterior at hg
        rw [← hnew.keys, if_pos hfit] at hg
        exact (Option.some.inj hg).symm
      · dsimp only [spliceChild, Grown.map] at hgc
        rw [hgc]
        obtain ⟨hc3, he3, hr3⟩ := allocInteriors_spec hrg (hc2.perm (hperm owned))
        exact .built _ (he'.trans (he3 owned)) hc3 hr3

theorem insertCopied_spec (hsrc : SourceOk disk src) (hgo : GoInserts disk go ct sub old)
    {a : Addr} {nd : Node ε ρ} {t : Inner (Tree ρ n)}
    (hc : Counted Node.kids h (a :: owned))
    (hn : h.node? a = some nd) (hrel : InnerRel (RepSlot disk (Rep disk h n)) nd.inner t)
    (hi : t.children[i]? = some ct) (hslot : nd.children[i]? = some slot)
    (hg : spliceChild cap t i sub = some g) :
    InsertPost disk owned h (n := n + 1) a t g old (insertCopied go src cap h nd i slot) := by
  obtain ⟨slot', hs', hrs, -, -⟩ := forall₂_cut hrel.children hi
  obtain rfl : slot = slot' := Option.some.inj (hslot.symm.trans hs')
  obtain ⟨hlt, -⟩ := List.getElem?_eq_some_iff.mp hslot
  have hlive : ∀ b ∈ slot.addr?, ∃ c, h.cell b = some c := by
    intro b hb
    have hmem : b ∈ nd.kids := List.mem_filterMap.mpr ⟨slot, List.mem_of_getElem? hslot, hb⟩
    obtain ⟨c, hcell, -⟩ := hc.kid_live hn hmem
    exact ⟨c, hcell⟩
  unfold insertCopied
  rcases child_spec hsrc hc hrs hlive with ⟨c, h1, heq, hc1, he1, hr1⟩ | ⟨e, heq, hs⟩
  · rw [heq]
    dsimp only
    have hlocal := insertLocal_spec (hgo h1 c (a :: owned) hc1 hr1)
    revert hlocal
    generalize insertLocal go h1 c = r
    intro hlocal
    cases hlocal with
    | failed hs he2 hc2 =>
      have he := (he1 (a :: owned)).trans he2
      exact .failed hs (he.mono (fun b hb => List.mem_cons_of_mem _ hb)) hc2
        (Rep.extends (Rep.inner hn hrel) he List.mem_cons_self)
    | @built ga h2 he2 hc2 hr2 =>
      have he := (he1 (a :: owned)).trans he2
      have hn2 : h2.node? a = some nd := he.keeps a List.mem_cons_self a nd (.refl a) hn
      have hkids : ∀ b ∈ nd.kids, ∃ c, h2.cell b = some c := by
        intro b hb
        obtain ⟨c, hcell, -⟩ := hc2.kid_live hn2 hb
        exact ⟨c, hcell⟩
      obtain ⟨hc3, he3⟩ := cloneAll_spec hc2 hkids
      obtain ⟨hc4, he4⟩ := releaseSlot_spec
        (hc3.perm (kidsOf_open hslot (ga.nodes ++ a :: owned)).symm)
      have he14 : Extends Node.kids (others nd.children i ++ (ga.nodes ++ a :: owned)) h2
          (releaseSlot (h2.cloneAll nd.kids) slot) := (he3 _).trans he4
      have hrel2 : InnerRel (RepSlot disk (Rep disk h2 n)) nd.inner t := by
        obtain ⟨nd', hn', hrel'⟩ := Rep.extends (Rep.inner hn hrel) he List.mem_cons_self
        rw [hn2] at hn'
        obtain rfl := Option.some.inj hn'
        exact hrel'
      have hpre := slots_extends (List.forall₂_take i hrel2.children) he14 kidsOf_take_mem
      have hpost := slots_extends (List.forall₂_drop (i + 1) hrel2.children) he14 kidsOf_drop_mem
      have hr4 := hr2.extends he14 (fun b hb =>
        List.mem_append_right _ (List.mem_append_left _ hb))
      have hcnt := hc4.perm (List.perm_append_comm_assoc ..)
      have hext : Extends Node.kids owned h (releaseSlot (h2.cloneAll nd.kids) slot) :=
        (he.mono (fun b hb => List.mem_cons_of_mem _ hb)).trans (he14.mono (fun b hb =>
          List.mem_append_right _ (List.mem_append_right _ (List.mem_cons_of_mem _ hb))))
      obtain ⟨gc, hgc, hrg, hperm⟩ := spliceChild_rel hrel2 hlt hpre hpost hr4 hg
      obtain ⟨hc5, he5, hr5⟩ := allocInteriors_spec hrg (hcnt.perm (hperm (a :: owned)))
      have hdone : InsertPost disk owned h (n := n + 1) a t g old (.ok (.built _, old), _) :=
        .built _ (hext.trans (he5 owned)) hc5 hr5
      cases ga with
      | whole b =>
        obtain rfl := Option.some.inj hgc
        exact hdone
      | split l sep r =>
        dsimp only [spliceChild, Grown.map] at hgc
        dsimp only
        rw [hgc]
        exact hdone
  · rw [heq]
    exact .failed hs (.refl _ _) hc (Rep.inner hn hrel)

end Interior

/-- `nodeInsert` computes `insertTree`. The induction is on the height of the tree, one level of the
    descent a step; `fuel` bounds it. -/
theorem nodeInsert_spec (hsrc : SourceOk disk src) {n : Nat} :
    ∀ {t : Tree ρ n} {g : Grown (Tree ρ n)} {old : Option ρ} {fuel : Nat} {h : Heap ε ρ} {a : Addr}
      {owned : List Addr}, n < fuel → Counted Node.kids h (a :: owned) → Rep disk h n a t →
      insertTree cap shape n t key rec = some (g, old) →
      InsertPost disk owned h a t g old (nodeInsert src cap shape key rec fuel h a) := by
  induction n with
  | zero =>
    rintro t g old fuel h a owned hfuel hc ⟨nd, hn, hleaf⟩ hins
    obtain ⟨fuel, rfl⟩ : ∃ k, fuel = k + 1 := ⟨fuel - 1, by omega⟩
    simp only [nodeInsert, hn, hleaf.isLeaf, if_true]
    split
    · rename_i hu
      simp only [Bool.and_eq_true, beq_iff_eq] at hu
      exact insertLeafInPlace_spec hc hn hleaf hu.1 hu.2 hins
    · exact insertLeafCopy_spec hc hleaf hins
  | succ n ih =>
    rintro t g old fuel h a owned hfuel hc ⟨nd, hn, hrel⟩ hins
    obtain ⟨fuel, rfl⟩ : ∃ k, fuel = k + 1 := ⟨fuel - 1, by omega⟩
    obtain ⟨ct, sub, hi, hsub, hg⟩ := insertTree_interior hins
    have hgo : GoInserts disk (nodeInsert src cap shape key rec fuel) ct sub old :=
      fun h c owned hc hr => ih (by omega) hc hr hsub
    have hkeys : nd.keys = t.keys := hrel.keys
    have hnotLeaf : nd.isLeaf = false := by
      have := hrel.len
      unfold Node.isLeaf
      cases hch : nd.children with
      | nil => simp [Node.inner, hch] at this
      | cons => rfl
    rw [← hkeys] at hi hg
    obtain ⟨slot, hslot, -, -, -⟩ := forall₂_cut hrel.children hi
    simp only [nodeInsert, hn, hnotLeaf, Bool.false_eq_true, if_false,
      show nd.children[childSlot nd.keys key]? = some slot from hslot]
    split
    · rename_i hu
      simp only [Bool.and_eq_true, beq_iff_eq] at hu
      obtain ⟨hout, heout, hback⟩ := borrow_spec hc hn hu.2
      have hrel' := hrel.extends heout (fun b hb => List.mem_append_left _ hb)
      have hpost := insertBorrowed_spec hsrc hgo hout hrel' hi hslot hg
      revert hpost
      generalize insertBorrowed _ src cap (h.checkOut a) nd _ slot = r
      intro hpost
      cases hpost with
      | kept he hc' hg' hr =>
        obtain ⟨h1, h2, h3, h4⟩ := hback _ _ _ hc' he
        exact .kept h2 h1 hg' (Rep.inner h3 (hr.keep h4))
      | built ga he hc' hr =>
        obtain ⟨h1, h2, h3, h4⟩ := hback _ _ _ hc' he
        exact .built ga h2 (h1.perm List.perm_middle.symm) (hr.mono (fun b _ d hb => Rep.mono hb h4))
      | failed hs he hc' hr =>
        obtain ⟨h1, h2, h3, h4⟩ := hback _ _ _ hc' he
        exact .failed hs h2 h1 (Rep.inner h3 (hr.keep h4))
    · exact insertCopied_spec hsrc hgo hc hn hrel hi hslot hg

end Jed.PMap
