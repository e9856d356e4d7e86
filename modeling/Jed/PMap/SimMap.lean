import Jed.PMap.SimRemove
import Jed.PMap.Map

/-!
# A handle represents a map

The operations of a `PMap` handle on the shared nodes are those of the `TreeMap` it represents. The
descent bound is never reached: a path visits each cell at most once.
-/

namespace Jed.PMap

open Arc

variable {ε ρ : Type} {disk : Disk ρ} {src : Option (LeafSource ε ρ)} {cap : Cap}
  {shape : LeafShape} {h : Heap ε ρ}

variable {n : Nat}

theorem InnerRel.slot_zero {S : Child → Tree ρ n → Prop} {t : Inner Child}
    {u : Inner (Tree ρ n)} (hr : InnerRel S t u) :
    ∃ c d, t.children[0]? = some c ∧ u.children[0]? = some d ∧ S c d := by
  have hlen := hr.len
  have hc := hr.children
  have hu : 0 < u.children.length := hc.length_eq ▸ (by omega)
  obtain ⟨c, h0, hcd, -, -⟩ := forall₂_cut hc (List.getElem?_eq_getElem hu)
  exact ⟨c, _, h0, List.getElem?_eq_getElem hu, hcd⟩

/-- An address represents trees of one height only. -/
theorem Rep.height_unique : ∀ {m : Nat} {a : Addr} {t : Tree ρ n} {u : Tree ρ m},
    Rep disk h n a t → Rep disk h m a u → n = m := by
  induction n with
  | zero =>
    rintro m a t u ⟨nd, hn, hleaf⟩ hu
    cases m with
    | zero => rfl
    | succ m =>
      obtain ⟨nd', hn', hrel⟩ := hu
      obtain rfl : nd = nd' := Option.some.inj (hn.symm.trans hn')
      have := hrel.not_isLeaf
      rw [hleaf.isLeaf] at this
      cases this
  | succ n ih =>
    rintro m a t u ⟨nd, hn, hrel⟩ hu
    cases m with
    | zero =>
      obtain ⟨nd', hn', hleaf⟩ := hu
      obtain rfl : nd = nd' := Option.some.inj (hn.symm.trans hn')
      have := hrel.not_isLeaf
      rw [hleaf.isLeaf] at this
      cases this
    | succ m =>
      obtain ⟨nd', hn', hrel'⟩ := hu
      obtain rfl : nd = nd' := Option.some.inj (hn.symm.trans hn')
      obtain ⟨c, d, hc, -, hcd⟩ := hrel.slot_zero
      obtain ⟨c', d', hc', -, hcd'⟩ := hrel'.slot_zero
      obtain rfl : c = c' := Option.some.inj (hc.symm.trans hc')
      cases c with
      | resident b => rw [ih hcd hcd']
      | onDisk p =>
        cases n with
        | succ n => exact hcd.elim
        | zero =>
          cases m with
          | zero => rfl
          | succ m => exact hcd'.elim

/-- Below a tree of height `n` there is a node of every height from 1 to `n`. -/
theorem Rep.descend : ∀ {a : Addr} {t : Tree ρ n}, Rep disk h n a t → ∀ k, k < n → ∃ b u, Rep disk h (n := k + 1) b u := by
  induction n with
  | zero => exact fun _ k hk => absurd hk (Nat.not_lt_zero k)
  | succ n ih =>
    rintro a t hr k hk
    rcases Nat.lt_or_ge k n with hlt | hge
    · obtain ⟨nd, hn, hrel⟩ := hr
      obtain ⟨c, d, hc, -, hcd⟩ := hrel.slot_zero
      cases c with
      | resident b => exact ih hcd k hlt
      | onDisk p =>
        cases n with
        | zero => omega
        | succ n => exact hcd.elim
    · obtain rfl : k = n := by omega
      exact ⟨a, t, hr⟩

variable {a : Addr}

theorem Rep.live {t : Tree ρ n} (hr : Rep disk h n a t) :
    ∃ nd, h.node? a = some nd := by
  cases n with
  | zero =>
    obtain ⟨nd, hn, -⟩ := hr
    exact ⟨nd, hn⟩
  | succ n =>
    obtain ⟨nd, hn, -⟩ := hr
    exact ⟨nd, hn⟩

/-- The nodes of a path are distinct cells. -/
theorem Rep.height_le {t : Tree ρ n} (hr : Rep disk h n a t) :
    n < depthBound h := by
  have hpath : ∀ k : Fin n, ∃ b : Fin h.cells.length, ∃ u, Rep disk h (n := k.1 + 1) b.1 u := by
    intro k
    obtain ⟨b, u, hu⟩ := hr.descend k.1 k.2
    obtain ⟨nd, hn⟩ := hu.live
    obtain ⟨c, hcell, -⟩ := node?_eq_some.mp hn
    exact ⟨⟨b, Store.lt_of_cell hcell⟩, u, hu⟩
  choose f hf using hpath
  have hinj : Function.Injective f := by
    intro i j hij
    obtain ⟨u, hu⟩ := hf i
    obtain ⟨u', hu'⟩ := hf j
    rw [hij] at hu
    have := hu.height_unique hu'
    exact Fin.ext (by omega)
  have := Fintype.card_le_of_injective f hinj
  simp only [Fintype.card_fin] at this
  unfold depthBound
  omega

/-- A node that is the root of the tree `t`. -/
def NodeRep (disk : Disk ρ) (h : Heap ε ρ) : (n : Nat) → Node ε ρ → Tree ρ n → Prop
  | 0, nd, (es : Leaf ρ) => nd.IsLeafOf es
  | n + 1, nd, (t : Inner (Tree ρ n)) => InnerRel (RepSlot disk (Rep disk h n)) nd.inner t

theorem Rep.node {t : Tree ρ n} (hr : Rep disk h n a t) :
    ∃ nd, h.node? a = some nd ∧ NodeRep disk h n nd t := by
  cases n <;> exact hr

/-- A read ends with its value, or with an error of the leaf source. -/
def ReadsAs {α : Type} (disk : Disk ρ) (v : α) : Except (Fault ε) α → Prop
  | .ok w => w = v
  | .error (.err _) => HasPages disk
  | .error .panic => False

theorem ReadsAs.bind {α β : Type} {v : α} {w : β} {x : Except (Fault ε) α}
    {f : α → Except (Fault ε) β} (hx : ReadsAs disk v x) (hf : ReadsAs disk w (f v)) :
    ReadsAs disk w (x.bind f) := by
  match x, hx with
  | .ok _, rfl => exact hf
  | .error (.err _), hx => exact hx

theorem ReadsAs.map {α β : Type} {v : α} {x : Except (Fault ε) α} (f : α → β)
    (hx : ReadsAs disk v x) : ReadsAs disk (f v) (x.map f) := by
  match x, hx with
  | .ok _, rfl => exact rfl
  | .error (.err _), hx => exact hx

theorem ReadsAs.mapM {α σ β : Type} {S : α → σ → Prop} {cs : List α} {ts : List σ}
    {f : α → Except (Fault ε) β} {g : σ → β} (hs : List.Forall₂ S cs ts)
    (hf : ∀ c t, S c t → ReadsAs disk (g t) (f c)) : ReadsAs disk (ts.map g) (cs.mapM f) := by
  induction hs with
  | nil => exact rfl
  | cons hct _ ih =>
    rw [List.mapM_cons, List.map_cons]
    exact (hf _ _ hct).bind (ih.bind rfl)

theorem ReadsAs.eq_ok {α : Type} {v : α} {x : Except (Fault ε) α} (hx : ReadsAs disk v x)
    (hd : ¬HasPages disk) : x = .ok v := by
  match x, hx with
  | .ok _, rfl => rfl
  | .error (.err _), hx => exact absurd hx hd

theorem enter_bind_spec {α : Type} (hsrc : SourceOk disk src) {slot : Child} {t : Tree ρ n}
    (hr : RepSlot disk (Rep disk h n) slot t) {f : Node ε ρ → Except (Fault ε) α} {v : α}
    (hf : ∀ nd, NodeRep disk h n nd t → ReadsAs disk v (f nd)) :
    ReadsAs disk v ((enter src h slot).bind f) := by
  cases slot with
  | resident a =>
    obtain ⟨nd, hn, hnr⟩ := Rep.node hr
    simp only [enter, hn]
    exact hf nd hnr
  | onDisk p =>
    cases n with
    | succ n => exact hr.elim
    | zero =>
      obtain ⟨load, rfl⟩ := Option.isSome_iff_exists.mp (hsrc.present p t hr)
      simp only [enter]
      cases hl : load h.cells.length p with
      | error e => exact ⟨p, by rw [show disk p = some t from hr]; rfl⟩
      | ok nd => exact hf nd (hsrc.sound load rfl _ p t nd hr hl)

variable {key : Bytes}

/-- A key is found inside the range searched. -/
theorem search_ok_lt {keyAt : Nat → Bytes} {lo hi i : Nat} (h : search keyAt key lo hi = .ok i) : i < hi := by
  induction lo, hi using search.induct keyAt key with
  | case1 lo hi hlt mid hless ih =>
    rw [search, if_pos hlt] at h
    dsimp only at h
    rw [if_pos hless] at h
    exact ih h
  | case2 lo hi hlt mid hless hmore ih =>
    rw [search, if_pos hlt] at h
    dsimp only at h
    rw [if_neg hless, if_pos hmore] at h
    have := ih h
    omega
  | case3 lo hi hlt mid hless hmore =>
    rw [search, if_pos hlt] at h
    dsimp only at h
    rw [if_neg hless, if_neg hmore] at h
    cases h
    omega
  | case4 lo hi hlt =>
    rw [search, if_neg hlt] at h
    cases h

theorem childSlot_le (keys : List Bytes) (key : Bytes) : childSlot keys key ≤ keys.length :=
  (List.takeWhile_sublist _).length_le

theorem nodeGet_spec (hsrc : SourceOk disk src) (key : Bytes) :
    ∀ {t : Tree ρ n} {nd : Node ε ρ} {fuel : Nat}, n < fuel → NodeRep disk h n nd t →
      ReadsAs disk (lookup n t key) (nodeGet src h key fuel nd) := by
  induction n with
  | zero =>
    intro t nd fuel hfuel hr
    obtain ⟨fuel, rfl⟩ : ∃ k, fuel = k + 1 := ⟨fuel - 1, by omega⟩
    have hleaf : nd.IsLeafOf (t : Leaf ρ) := hr
    simp only [nodeGet, hleaf.isLeaf, if_true, hleaf.search, lookup]
    cases hs : searchKeys (List.map Prod.fst t) key with
    | error i => exact rfl
    | ok i =>
      have hi : i < (t : Leaf ρ).length := by
        exact (search_ok_lt hs).trans_eq (List.length_map ..)
      dsimp only
      rw [hleaf.rowAt, List.getElem?_eq_getElem hi]
      exact rfl
  | succ n ih =>
    intro t nd fuel hfuel hr
    obtain ⟨fuel, rfl⟩ : ∃ k, fuel = k + 1 := ⟨fuel - 1, by omega⟩
    have hrel : InnerRel (RepSlot disk (Rep disk h n)) nd.inner t := hr
    have hkeys : nd.keys = t.keys := hrel.keys
    have hlen := hrel.len
    have hslot := childSlot_le nd.keys key
    simp only [Node.inner] at hlen
    have hlt : childSlot nd.keys key < t.children.length := by
      have := hrel.children.length_eq
      simp only [Node.inner] at this
      omega
    obtain ⟨slot, hs, hrs, -, -⟩ := forall₂_cut hrel.children (List.getElem?_eq_getElem hlt)
    simp only [nodeGet, hrel.not_isLeaf, Bool.false_eq_true, if_false,
      show nd.children[childSlot nd.keys key]? = some slot from hs, lookup, ← hkeys,
      List.getElem?_eq_getElem hlt]
    exact enter_bind_spec hsrc hrs (fun nd' hnr => ih (by omega) hnr)

theorem Node.IsLeafOf.collect {nd : Node ε ρ} {es : Leaf ρ} (hleaf : nd.IsLeafOf es) :
    ReadsAs disk (SortedMap.mapValues Rec.row es) ((List.range nd.len).mapM (fun i =>
      (readRow (nd.rowAt i)).map (fun row => (nd.keyAt i, row)))) := by
  have hrows : List.Forall₂ (fun i e => es[i]? = some e) (List.range nd.len) es := by
    rw [hleaf.len, List.forall₂_iff_get]
    refine ⟨List.length_range, fun i h1 h2 => ?_⟩
    simp [List.getElem?_eq_getElem h2]
  refine ReadsAs.mapM hrows (fun i e he => ?_)
  obtain ⟨hi, rfl⟩ := List.getElem?_eq_some_iff.mp he
  rw [hleaf.rowAt, hleaf.keyAt, he]
  simp [ReadsAs, readRow, Except.map, hi]

theorem collect_spec (hsrc : SourceOk disk src) :
    ∀ {t : Tree ρ n} {nd : Node ε ρ} {fuel : Nat}, n < fuel → NodeRep disk h n nd t →
      ReadsAs disk (SortedMap.mapValues Rec.row (records n t)) (collect src h fuel nd) := by
  induction n with
  | zero =>
    intro t nd fuel hfuel hr
    obtain ⟨fuel, rfl⟩ : ∃ k, fuel = k + 1 := ⟨fuel - 1, by omega⟩
    have hleaf : nd.IsLeafOf (t : Leaf ρ) := hr
    simp only [PMap.collect, hleaf.isLeaf, if_true, records]
    exact hleaf.collect
  | succ n ih =>
    intro t nd fuel hfuel hr
    obtain ⟨fuel, rfl⟩ : ∃ k, fuel = k + 1 := ⟨fuel - 1, by omega⟩
    have hrel : InnerRel (RepSlot disk (Rep disk h n)) nd.inner t := hr
    simp only [PMap.collect, hrel.not_isLeaf, Bool.false_eq_true, if_false, records]
    have hflat : SortedMap.mapValues Rec.row (t.children.flatMap (records n)) =
        List.flatten (t.children.map (fun c => SortedMap.mapValues Rec.row (records n c))) := by
      simp only [SortedMap.mapValues, List.flatMap, List.map_flatten, List.map_map]
      rfl
    rw [hflat]
    exact (ReadsAs.mapM hrel.children (fun slot c hrs =>
      enter_bind_spec hsrc hrs (fun nd' hnr => ih (by omega) hnr))).map List.flatten

/-- A root represents a tree, or there is neither. -/
inductive RootRep (disk : Disk ρ) (h : Heap ε ρ) :
    Option Addr → Option ((n : Nat) × Tree ρ n) → Prop where
  | empty : RootRep disk h none none
  | root {n : Nat} {a : Addr} {t : Tree ρ n} (hr : Rep disk h n a t) :
      RootRep disk h (some a) (some ⟨n, t⟩)

/-- A handle represents a map. -/
structure MapRep (disk : Disk ρ) (h : Heap ε ρ) (m : PMap) (tm : TreeMap ρ) : Prop where
  count : m.count = some tm.count
  root : RootRep disk h m.root tm.root

theorem MapRep.new : MapRep disk h PMap.new (TreeMap.new : TreeMap ρ) := ⟨rfl, .empty⟩

variable {m : PMap} {tm : TreeMap ρ}

/-- A handle represents the same map on any heap that keeps what its root reaches. -/
theorem MapRep.extends {h' : Heap ε ρ} {live : List Addr}
    (hr : MapRep disk h m tm) (he : Extends Node.kids live h h') (hl : ∀ a ∈ m.refs, a ∈ live) :
    MapRep disk h' m tm := by
  obtain ⟨root, count⟩ := m
  obtain ⟨troot, tcount⟩ := tm
  obtain ⟨hcount, hroot⟩ := hr
  refine ⟨hcount, ?_⟩
  cases hroot with
  | empty => exact .empty
  | root hr => exact .root (hr.extends he (hl _ (by simp [PMap.refs])))

theorem get_spec (hsrc : SourceOk disk src) (hr : MapRep disk h m tm)
    (key : Bytes) : ReadsAs disk (tm.get key) (m.get src h key) := by
  obtain ⟨root, count⟩ := m
  obtain ⟨troot, tcount⟩ := tm
  obtain ⟨-, hroot⟩ := hr
  cases hroot with
  | empty => exact rfl
  | root hrep =>
    exact enter_bind_spec hsrc (show RepSlot disk (Rep disk h _) (.resident _) _ from hrep)
      (fun nd hnr => nodeGet_spec hsrc key hrep.height_le hnr)

theorem iter_spec (hsrc : SourceOk disk src) (hr : MapRep disk h m tm) :
    ReadsAs disk (SortedMap.mapValues Rec.row tm.contents) (m.iter src h) := by
  obtain ⟨root, count⟩ := m
  obtain ⟨troot, tcount⟩ := tm
  obtain ⟨-, hroot⟩ := hr
  cases hroot with
  | empty => exact rfl
  | root hrep =>
    exact enter_bind_spec hsrc (show RepSlot disk (Rep disk h _) (.resident _) _ from hrep)
      (fun nd hnr => collect_spec hsrc hrep.height_le hnr)

/-- What an operation on a handle leaves, next to the references `owned` by others. -/
inductive MapPost (disk : Disk ρ) (owned : List Addr)
    (h : Heap ε ρ) (tm' : TreeMap ρ) (old : Option ρ) :
    Except (Fault ε) (Option ρ) × PMap × Heap ε ρ → Prop where
  | done {h' : Heap ε ρ} {m' : PMap} (he : Extends Node.kids owned h h')
      (hc : Counted Node.kids h' (m'.refs ++ owned)) (hr : MapRep disk h' m' tm') :
      MapPost disk owned h tm' old (.ok old, m', h')
  | failed {h' : Heap ε ρ} {m' : PMap} {e : ε} (hs : HasPages disk)
      (he : Extends Node.kids owned h h') (hc : Counted Node.kids h' (m'.refs ++ owned)) :
      MapPost disk owned h tm' old (.error (.err e), m', h')

theorem alloc_node? (h : Heap ε ρ) (nd : Node ε ρ) :
    (h.alloc nd).2.node? h.cells.length = some nd := by simp [Store.node?, Store.cell_alloc]

/-- `PMap::insert` computes the tree-value insert. -/
theorem pmapInsert_spec (hsrc : SourceOk disk src) {tm' : TreeMap ρ}
    {owned : List Addr} {rec : Rec ρ} {old : Option ρ}
    (hc : Counted Node.kids h (m.refs ++ owned)) (hr : MapRep disk h m tm)
    (hins : tm.insert cap shape key rec = some (old, tm')) :
    MapPost disk owned h tm' old (m.insert src cap shape h key rec) := by
  obtain ⟨root, count⟩ := m
  obtain ⟨troot, tcount⟩ := tm
  obtain ⟨hcount, hroot⟩ := hr
  obtain rfl : count = some tcount := hcount
  cases hroot with
  | empty =>
    simp only [TreeMap.insert] at hins
    obtain ⟨rfl, rfl⟩ := Prod.ext_iff.mp (Option.some.inj hins)
    have hc1 : Counted Node.kids (h.alloc (.leaf [(key, rec)])).2 (h.cells.length :: owned) :=
      Counted.alloc (by simpa [PMap.refs] using hc)
    refine .done (.alloc owned h _) hc1 ⟨rfl, .root ?_⟩
    exact Rep.leaf (alloc_node? h _) (Node.leaf_isLeafOf _)
  | @root n a t hrep =>
    simp only [TreeMap.insert, Option.bind_eq_bind, Option.bind_eq_some_iff] at hins
    obtain ⟨⟨g, old'⟩, hins, hres⟩ := hins
    obtain ⟨rfl, rfl⟩ := Prod.ext_iff.mp (Option.some.inj hres)
    have hgrow : (if old'.isNone then (some tcount).map (· + 1) else some tcount) =
        some (if old'.isNone then tcount + 1 else tcount) := by
      split <;> rfl
    have hdepth : n < depthBound h := hrep.height_le
    have hpost := nodeInsert_spec hsrc hdepth hc hrep hins
    simp only [PMap.insert]
    revert hpost
    generalize nodeInsert src cap shape key rec (depthBound h) h a = r
    intro hpost
    cases hpost with
    | failed hs he hc' hr' => exact .failed hs he hc'
    | kept he hc' hg hr' =>
      subst hg
      exact .done he hc' ⟨hgrow, .root hr'⟩
    | @built ga h' he hc' hr' =>
      cases ga with
      | whole b =>
        cases g with
        | split => exact hr'.elim
        | whole t' =>
          obtain ⟨hc2, he2⟩ := release_spec (hc'.perm (.swap ..))
          exact .done (he.trans (he2.mono (fun c hcm => List.mem_cons_of_mem _ hcm))) hc2
            ⟨hgrow, .root (Rep.extends hr' he2 List.mem_cons_self)⟩
      | split l sep r =>
        cases g with
        | whole => exact hr'.elim
        | split tl tsep tr =>
          obtain ⟨hl, rfl, hr2⟩ := hr'
          have hc1 : Counted Node.kids
              (h'.alloc (.interior ⟨[sep], [.resident l, .resident r]⟩)).2
              (h'.cells.length :: a :: owned) := Counted.alloc hc'
          obtain ⟨hc2, he2⟩ := release_spec (hc1.perm (.swap ..))
          have hal : ∀ live, Extends Node.kids live h'
              (h'.alloc (.interior ⟨[sep], [.resident l, .resident r]⟩)).2 :=
            fun live => .alloc live h' _
          refine .done ((he.trans (hal owned)).trans
            (he2.mono (fun c hcm => List.mem_cons_of_mem _ hcm))) hc2 ⟨hgrow, .root ?_⟩
          refine Rep.extends (Rep.inner (alloc_node? h' _) ⟨rfl, rfl, ?_⟩) he2 List.mem_cons_self
          exact .cons (Rep.extends hl (hal [l]) List.mem_cons_self)
            (.cons (Rep.extends hr2 (hal [r]) List.mem_cons_self) .nil)

/-- `PMap::remove` computes the tree-value remove. -/
theorem pmapRemove_spec (hsrc : SourceOk disk src) {tm' : TreeMap ρ} {owned : List Addr} {old : Option ρ}
    (hc : Counted Node.kids h (m.refs ++ owned)) (hr : MapRep disk h m tm)
    (hrem : tm.remove cap shape key = some (old, tm')) :
    MapPost disk owned h tm' old (m.remove src cap shape h key) := by
  obtain ⟨root, count⟩ := m
  obtain ⟨troot, tcount⟩ := tm
  obtain ⟨hcount, hroot⟩ := hr
  obtain rfl : count = some tcount := hcount
  cases hroot with
  | empty =>
    simp only [TreeMap.remove] at hrem
    obtain ⟨rfl, rfl⟩ := Prod.ext_iff.mp (Option.some.inj hrem)
    exact .done (.refl _ _) hc ⟨rfl, .empty⟩
  | @root n a t hrep =>
    simp only [TreeMap.remove, Option.bind_eq_bind, Option.bind_eq_some_iff] at hrem
    obtain ⟨⟨row, t'⟩, hrem, hres⟩ := hrem
    have hdepth : n < depthBound h := hrep.height_le
    have hpost := nodeRemove_spec hsrc hdepth hc hrep hrem
    simp only [PMap.remove]
    revert hpost
    generalize nodeRemove src cap shape key (depthBound h) h a = r
    intro hpost
    cases hpost with
    | failed hs he hc' => exact .failed hs he hc'
    | @done h' b he hc' hr' hd =>
      cases row with
      | none =>
        obtain ⟨rfl, rfl⟩ := Prod.ext_iff.mp (Option.some.inj hres)
        obtain rfl := removeTree_absent hrem
        exact .done he hc' ⟨rfl, .root hr'⟩
      | some row =>
        simp only [Option.bind_eq_some_iff] at hres
        obtain ⟨root', hcol, hres⟩ := hres
        obtain ⟨rfl, rfl⟩ := Prod.ext_iff.mp (Option.some.inj hres)
        obtain ⟨nd, hn, hnr⟩ := hr'.node
        dsimp only
        rw [hn]
        dsimp only
        cases n with
        | zero =>
          have hleaf : nd.IsLeafOf (t' : Leaf ρ) := hnr
          have hkeys : nd.keys.isEmpty = (t' : Leaf ρ).isEmpty := by
            rw [(hleaf.decoded (hd rfl nd hn hleaf.isLeaf)).1]
            exact List.isEmpty_map
          obtain rfl := Option.some.inj hcol
          rw [hkeys, hleaf.children]
          split
          · obtain ⟨hc2, he2⟩ := release_spec hc'
            exact .done (he.trans he2) hc2 ⟨rfl, .empty⟩
          · exact .done he hc' ⟨rfl, .root hr'⟩
        | succ n =>
          have hrel : InnerRel (RepSlot disk (Rep disk h' n)) nd.inner t' := hnr
          have hkeys : nd.keys = t'.keys := hrel.keys
          simp only [collapseRoot] at hcol
          rw [hkeys]
          split at hcol
          · rename_i hnil
            rw [if_pos hnil]
            obtain ⟨slot, c, h0, hc0, hrs⟩ := hrel.slot_zero
            rw [show nd.children[0]? = some slot from h0]
            rw [hc0] at hcol
            obtain rfl := Option.some.inj hcol
            have hlive : ∀ x ∈ slot.addr?, ∃ cl, h'.cell x = some cl := by
              intro x hx
              have hmem : x ∈ nd.kids := List.mem_filterMap.mpr ⟨slot, List.mem_of_getElem? h0, hx⟩
              obtain ⟨cl, hcell, -⟩ := hc'.kid_live hn hmem
              exact ⟨cl, hcell⟩
            dsimp only
            rcases child_spec hsrc hc' hrs hlive with ⟨x, h1, heq, hc1, he1, hr1⟩ | ⟨e, heq, hs⟩
            · rw [heq]
              obtain ⟨hc2, he2⟩ := release_spec (hc1.perm (.swap ..))
              exact .done ((he.trans (he1 owned)).trans
                (he2.mono (fun y hy => List.mem_cons_of_mem _ hy))) hc2
                ⟨rfl, .root (Rep.extends hr1 he2 List.mem_cons_self)⟩
            · rw [heq]
              exact .failed hs he hc'
          · rename_i hnil
            rw [if_neg hnil]
            obtain rfl := Option.some.inj hcol
            exact .done he hc' ⟨rfl, .root hr'⟩

end Jed.PMap
