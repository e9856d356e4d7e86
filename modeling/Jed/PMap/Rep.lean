import Jed.PMap.Contents
import Jed.PMap.Heap

/-!
# The tree a heap address represents

`Rep` relates an address to a tree value: the nodes behind it, and the pages below it, are that
tree. It reads nothing but the nodes reachable from the address, so whatever `Extends` promises an
owner keeps what the owner represents.
-/

namespace Jed.PMap

open Arc

variable {ε ρ : Type}

/-- What the pages on disk hold. -/
abbrev Disk (ρ : Type) := PageRef → Option (Leaf ρ)

/-- A leaf node holding `es`. A packed leaf is clean, and its rows decode. -/
structure Node.IsLeafOf (nd : Node ε ρ) (es : Leaf ρ) : Prop where
  children : nd.children = []
  decoded : nd.packed = none → nd.keys = es.map Prod.fst ∧ nd.recs = es.map Prod.snd
  packed : ∀ p, nd.packed = some p →
    nd.page.page ≠ 0 ∧ p = es.map (fun e => ⟨e.1, .ok e.2.row, e.2.weight⟩)

/-- A page is referenced as a leaf only. -/
def OnDisk (disk : Disk ρ) : (n : Nat) → PageRef → Tree ρ n → Prop
  | 0, p, es => disk p = some es
  | _ + 1, _, _ => False

/-- What a child slot represents. -/
def RepSlot (disk : Disk ρ) {n : Nat} (rep : Addr → Tree ρ n → Prop) : Child → Tree ρ n → Prop
  | .resident a, t => rep a t
  | .onDisk p, t => OnDisk disk n p t

/-- Two interior nodes over related children. -/
structure InnerRel {τ σ : Type} (S : τ → σ → Prop) (t : Inner τ) (u : Inner σ) : Prop where
  keys : t.keys = u.keys
  len : t.children.length = t.keys.length + 1
  children : List.Forall₂ S t.children u.children

/-- Two builder results over related nodes. -/
def Grown.Rel {τ σ : Type} (S : τ → σ → Prop) : Grown τ → Grown σ → Prop
  | .whole t, .whole u => S t u
  | .split l s r, .split l' s' r' => S l l' ∧ s = s' ∧ S r r'
  | _, _ => False

/-- The node at `a` is the root of the tree `t`. -/
def Rep (disk : Disk ρ) (h : Heap ε ρ) : (n : Nat) → Addr → Tree ρ n → Prop
  | 0, a, (es : Leaf ρ) => ∃ nd, h.node? a = some nd ∧ nd.IsLeafOf es
  | n + 1, a, (t : Inner (Tree ρ n)) =>
    ∃ nd, h.node? a = some nd ∧ InnerRel (RepSlot disk (Rep disk h n)) nd.inner t

/-- Some page is a leaf: a load can be needed, and fail. -/
def HasPages (disk : Disk ρ) : Prop := ∃ p, (disk p).isSome

/-- The leaf source serves what the disk holds, when it serves. -/
structure SourceOk (disk : Disk ρ) (src : Option (LeafSource ε ρ)) : Prop where
  present : ∀ p es, disk p = some es → src.isSome
  sound : ∀ load ∈ src, ∀ k p es nd, disk p = some es → load k p = .ok nd → nd.IsLeafOf es

/-- The references a list of child slots holds. -/
def kidsOf (cs : List Child) : List Addr := cs.filterMap Child.addr?

theorem Node.kids_eq (nd : Node ε ρ) : nd.kids = kidsOf nd.children := rfl

@[simp] theorem kidsOf_nil : kidsOf [] = [] := rfl

@[simp] theorem kidsOf_cons (c : Child) (cs : List Child) :
    kidsOf (c :: cs) = c.addr?.toList ++ kidsOf cs := by
  cases c <;> rfl

@[simp] theorem kidsOf_append (cs ds : List Child) : kidsOf (cs ++ ds) = kidsOf cs ++ kidsOf ds :=
  List.filterMap_append ..

variable {a : Addr} {cs : List Child}

theorem mem_kidsOf : a ∈ kidsOf cs ↔ .resident a ∈ cs := by
  simp only [kidsOf, List.mem_filterMap]
  constructor
  · rintro ⟨c, hc, ha⟩
    cases c with
    | resident b => cases ha; exact hc
    | onDisk p => cases ha
  · exact fun h => ⟨_, h, rfl⟩

section Leaf

variable {nd : Node ε ρ} {es : Leaf ρ}

theorem Node.IsLeafOf.isLeaf (h : nd.IsLeafOf es) : nd.isLeaf := by
  simp [Node.isLeaf, h.children]

theorem Node.IsLeafOf.kids (h : nd.IsLeafOf es) : nd.kids = [] := by
  simp [Node.kids, h.children]

theorem Node.leaf_isLeafOf (es : Leaf ρ) : (Node.leaf es : Node ε ρ).IsLeafOf es :=
  ⟨rfl, fun _ => ⟨rfl, rfl⟩, fun _ h => by cases h⟩

theorem Node.IsLeafOf.dirty (h : nd.IsLeafOf es) (hd : nd.page.page = 0) : nd.packed = none := by
  cases hp : nd.packed with
  | none => rfl
  | some p => exact absurd hd (h.packed p hp).1

theorem Node.IsLeafOf.zip (h : nd.IsLeafOf es) (hp : nd.packed = none) :
    nd.keys.zip nd.recs = es := by
  obtain ⟨hk, hr⟩ := h.decoded hp
  rw [hk, hr, List.zip_map', List.map_id'' (fun _ => rfl)]

theorem Node.IsLeafOf.decodedParts (h : nd.IsLeafOf es) : nd.decodedParts = .ok es := by
  unfold Node.decodedParts
  cases hp : nd.packed with
  | none => simp only [h.zip hp]
  | some p =>
    dsimp only
    rw [(h.packed p hp).2]
    clear hp h
    induction es with
    | nil => rfl
    | cons e es ih => simp only [List.map_cons, List.mapM_cons, ih, decodeRec]; rfl

theorem Node.IsLeafOf.weights (h : nd.IsLeafOf es) : nd.weights = es.map (·.2.weight) := by
  unfold Node.weights
  cases hp : nd.packed with
  | none => simp only [(h.decoded hp).2, List.map_map]; rfl
  | some p => simp only [(h.packed p hp).2, List.map_map]; rfl

theorem Node.IsLeafOf.len (h : nd.IsLeafOf es) : nd.len = es.length := by
  unfold Node.len
  cases hp : nd.packed with
  | none => simp [(h.decoded hp).1]
  | some p => simp [(h.packed p hp).2]

theorem Node.IsLeafOf.keyAt (h : nd.IsLeafOf es) :
    nd.keyAt = fun i => (es.map Prod.fst).getD i [] := by
  funext i
  unfold Node.keyAt
  cases hp : nd.packed with
  | none => simp only [(h.decoded hp).1]
  | some p =>
    simp only [(h.packed p hp).2, List.getElem?_map, Option.map_map, List.getD_eq_getElem?_getD]
    rfl

theorem Node.IsLeafOf.search (h : nd.IsLeafOf es) (key : Bytes) :
    nd.search key = searchKeys (es.map Prod.fst) key := by
  unfold Node.search searchKeys
  rw [h.keyAt, h.len, List.length_map]

theorem Node.IsLeafOf.rowAt (h : nd.IsLeafOf es) (i : Nat) :
    nd.rowAt i = (es[i]?).map (fun e => .ok e.2.row) := by
  unfold Node.rowAt
  cases hp : nd.packed with
  | none => simp only [(h.decoded hp).2, List.getElem?_map, Option.map_map]; rfl
  | some p => simp only [(h.packed p hp).2, List.getElem?_map, Option.map_map]; rfl

theorem Node.IsLeafOf.payload (h : nd.IsLeafOf es) (cap : Cap) (shape : LeafShape) :
    nd.payload cap shape = PMap.payload cap shape 0 es := by
  unfold Node.payload
  rw [if_pos h.isLeaf, h.weights]
  rfl

end Leaf

theorem InnerRel.mono {τ σ : Type} {S S' : τ → σ → Prop} {t : Inner τ} {u : Inner σ}
    (h : InnerRel S t u) (hS : ∀ c ∈ t.children, ∀ d, S c d → S' c d) : InnerRel S' t u where
  keys := h.keys
  len := h.len
  children := by
    have hc := h.children
    revert hS hc
    generalize t.children = cs
    generalize u.children = ds
    intro hS hc
    induction hc with
    | nil => exact .nil
    | cons hcd _ ih =>
      exact .cons (hS _ List.mem_cons_self _ hcd)
        (ih (fun c hc d => hS c (List.mem_cons_of_mem _ hc) d))

theorem Grown.Rel.mono {τ σ : Type} {S S' : τ → σ → Prop} {g : Grown τ} {g' : Grown σ}
    (h : g.Rel S g') (hS : ∀ c ∈ g.nodes, ∀ d, S c d → S' c d) : g.Rel S' g' := by
  match g, g', h with
  | .whole t, .whole u, h => exact hS t (by simp [Grown.nodes]) u h
  | .split l s r, .split l' s' r', ⟨h1, h2, h3⟩ =>
    exact ⟨hS l (by simp [Grown.nodes]) l' h1, h2, hS r (by simp [Grown.nodes]) r' h3⟩

variable {disk : Disk ρ} {h h' : Heap ε ρ}

theorem Rep.leaf {nd : Node ε ρ} {es : Leaf ρ} (hn : h.node? a = some nd)
    (hl : nd.IsLeafOf es) : Rep disk h 0 a es := ⟨nd, hn, hl⟩

variable {n : Nat}

theorem Rep.inner {nd : Node ε ρ} {t : Inner (Tree ρ n)}
    (hn : h.node? a = some nd) (hr : InnerRel (RepSlot disk (Rep disk h n)) nd.inner t) :
    Rep disk h (n + 1) a t := ⟨nd, hn, hr⟩

/-- What an address represents depends on the nodes it reaches, and on nothing else. -/
theorem Rep.reach : ∀ {a : Addr} {t : Tree ρ n}, Rep disk h n a t →
    (∀ b nd, Reach Node.kids h a b → h.node? b = some nd → h'.node? b = some nd) →
    Rep disk h' n a t := by
  induction n with
  | zero =>
    rintro a t ⟨nd, hnd, hleaf⟩ hkeep
    exact ⟨nd, hkeep a nd (.refl a) hnd, hleaf⟩
  | succ n ih =>
    rintro a t ⟨nd, hnd, hrel⟩ hkeep
    refine ⟨nd, hkeep a nd (.refl a) hnd, hrel.mono (fun c hc d hcd => ?_)⟩
    cases c with
    | onDisk p => exact hcd
    | resident b =>
      have hkid : b ∈ nd.kids := mem_kidsOf.mpr hc
      exact ih hcd (fun b' nd' hb' => hkeep b' nd' (hb'.kid hnd hkid))

variable {live : List Addr}

theorem Rep.extends {t : Tree ρ n} (hr : Rep disk h n a t)
    (he : Extends Node.kids live h h') (ha : a ∈ live) : Rep disk h' n a t :=
  hr.reach (fun b nd => he.keeps a ha b nd)

theorem Rep.mono {t : Tree ρ n} (hr : Rep disk h n a t)
    (hk : ∀ b nd, h.node? b = some nd → h'.node? b = some nd) : Rep disk h' n a t :=
  hr.reach (fun b nd _ => hk b nd)

theorem RepSlot.extends {c : Child} {t : Tree ρ n}
    (hr : RepSlot disk (Rep disk h n) c t) (he : Extends Node.kids live h h')
    (ha : ∀ a ∈ c.addr?, a ∈ live) : RepSlot disk (Rep disk h' n) c t := by
  cases c with
  | onDisk p => exact hr
  | resident a => exact Rep.extends hr he (ha a rfl)

/-- The slots of a list keep what they represent. -/
theorem slots_extends {ts : List (Tree ρ n)}
    (hr : List.Forall₂ (RepSlot disk (Rep disk h n)) cs ts) (he : Extends Node.kids live h h')
    (ha : ∀ a ∈ kidsOf cs, a ∈ live) : List.Forall₂ (RepSlot disk (Rep disk h' n)) cs ts := by
  induction hr with
  | nil => exact .nil
  | cons hcd _ ih =>
    rename_i c t cs' ts' _
    simp only [kidsOf_cons, List.mem_append] at ha
    exact .cons (hcd.extends he (fun a hac => ha a (.inl (by simpa using hac))))
      (ih (fun a hac => ha a (.inr hac)))

theorem InnerRel.extends {t : Inner Child} {u : Inner (Tree ρ n)}
    (hr : InnerRel (RepSlot disk (Rep disk h n)) t u) (he : Extends Node.kids live h h')
    (ha : ∀ a ∈ kidsOf t.children, a ∈ live) : InnerRel (RepSlot disk (Rep disk h' n)) t u :=
  ⟨hr.keys, hr.len, slots_extends hr.children he ha⟩

theorem InnerRel.keep {t : Inner Child} {u : Inner (Tree ρ n)}
    (hr : InnerRel (RepSlot disk (Rep disk h n)) t u)
    (hk : ∀ b nd, h.node? b = some nd → h'.node? b = some nd) :
    InnerRel (RepSlot disk (Rep disk h' n)) t u :=
  hr.mono (fun c _ _ hcd => by
    cases c with
    | onDisk p => exact hcd
    | resident b => exact Rep.mono hcd hk)

theorem forall₂_cut {τ σ : Type} {S : τ → σ → Prop} {cs : List τ} {ts : List σ}
    (h : List.Forall₂ S cs ts) {i : Nat} {t : σ} (ht : ts[i]? = some t) :
    ∃ c, cs[i]? = some c ∧ S c t ∧ List.Forall₂ S (cs.take i) (ts.take i) ∧
      List.Forall₂ S (cs.drop (i + 1)) (ts.drop (i + 1)) := by
  obtain ⟨hi, rfl⟩ := List.getElem?_eq_some_iff.mp ht
  have hi' : i < cs.length := h.length_eq ▸ hi
  exact ⟨cs[i], List.getElem?_eq_getElem hi', h.get hi' hi, List.forall₂_take i h,
    List.forall₂_drop (i + 1) h⟩

theorem forall₂_append {τ σ : Type} {S : τ → σ → Prop} {as bs : List τ} {cs ds : List σ}
    (h1 : List.Forall₂ S as cs) (h2 : List.Forall₂ S bs ds) :
    List.Forall₂ S (as ++ bs) (cs ++ ds) := by
  induction h1 with
  | nil => exact h2
  | cons h _ ih => exact .cons h ih

section Slots

variable {τ σ : Type} {S S' : τ → σ → Prop} {t : Inner τ} {u : Inner σ} {i : Nat}

theorem InnerRel.setChild (h : InnerRel S t u) (hi : i < t.children.length) {c : τ} {d : σ}
    (hpre : List.Forall₂ S' (t.children.take i) (u.children.take i)) (hcd : S' c d)
    (hpost : List.Forall₂ S' (t.children.drop (i + 1)) (u.children.drop (i + 1))) :
    InnerRel S' (t.setChild i c) (u.setChild i d) := by
  have hi' : i < u.children.length := h.children.length_eq ▸ hi
  refine ⟨h.keys, by simpa [Inner.setChild] using h.len, ?_⟩
  simp only [Inner.setChild, Splice.set_eq hi, Splice.set_eq hi']
  exact forall₂_append hpre (.cons hcd hpost)

theorem InnerRel.splitChild (h : InnerRel S t u) (hi : i < t.children.length) {l r : τ} {l' r' : σ}
    {sep : Bytes} (hpre : List.Forall₂ S' (t.children.take i) (u.children.take i)) (hl : S' l l')
    (hr : S' r r')
    (hpost : List.Forall₂ S' (t.children.drop (i + 1)) (u.children.drop (i + 1))) :
    InnerRel S' (t.splitChild i l sep r) (u.splitChild i l' sep r') := by
  have hi' : i < u.children.length := h.children.length_eq ▸ hi
  have hlen := h.len
  refine ⟨?_, ?_, ?_⟩
  · simp only [Inner.splitChild, h.keys]
  · simp only [Inner.splitChild]
    rw [List.length_insertIdx_of_le_length (by rw [List.length_set]; omega),
      List.length_insertIdx_of_le_length (by omega), List.length_set, hlen]
  · simp only [Inner.splitChild, Splice.set_insertIdx_eq hi, Splice.set_insertIdx_eq hi']
    exact forall₂_append hpre (.cons hl (.cons hr hpost))

theorem Inner.setChild_self {c : τ} (h : t.children[i]? = some c) : t.setChild i c = t := by
  obtain ⟨hi, -⟩ := List.getElem?_eq_some_iff.mp h
  unfold Inner.setChild
  rw [Splice.set_eq hi, ← Splice.eq_cut h]

/-- `build_interior` looks at the separators alone, so related nodes are built alike. -/
theorem buildInterior_rel (h : InnerRel S t u) (cap : Cap) (edited : Option Nat) :
    Option.Rel (Grown.Rel (InnerRel S)) (buildInterior t cap edited) (buildInterior u cap edited) := by
  have hlen := h.len
  unfold buildInterior
  rw [h.keys]
  split
  · exact .some h
  · cases hm : interiorSplitPoint u.keys cap edited with
    | none => exact .none
    | some m =>
      obtain ⟨-, hmn⟩ := interiorSplitPoint_mem hm
      simp only [Option.bind_eq_bind, Option.bind_some, List.getElem?_eq_getElem hmn]
      refine .some ⟨⟨rfl, ?_, List.forall₂_take _ h.children⟩, rfl,
        ⟨rfl, ?_, List.forall₂_drop _ h.children⟩⟩
      · rw [h.keys] at hlen
        simp only [List.length_take, hlen]
        omega
      · rw [h.keys] at hlen
        simp only [List.length_drop, hlen]
        omega

end Slots

/-- The builder keeps the children. -/
theorem buildInterior_kids {t : Inner Child} {cap : Cap} {edited : Option Nat}
    {g : Grown (Inner Child)} (hg : buildInterior t cap edited = some g) :
    g.nodes.flatMap (fun t => kidsOf t.children) = kidsOf t.children := by
  unfold buildInterior at hg
  split at hg
  · obtain rfl := Option.some.inj hg
    simp [Grown.nodes]
  · simp only [Option.bind_eq_bind, Option.bind_eq_some_iff] at hg
    obtain ⟨m, -, sep, -, hg⟩ := hg
    obtain rfl := Option.some.inj hg
    simp only [Grown.nodes, List.flatMap_cons, List.flatMap_nil, List.append_nil, ← kidsOf_append,
      List.take_append_drop]

/-- The references the other slots hold. -/
def others (cs : List Child) (i : Nat) : List Addr :=
  kidsOf (cs.take i) ++ kidsOf (cs.drop (i + 1))

variable {owned : List Addr}

theorem kidsOf_take_mem {i : Nat} :
    ∀ a ∈ kidsOf (cs.take i), a ∈ others cs i ++ owned :=
  fun _ ha => List.mem_append_left _ (List.mem_append_left _ ha)

theorem kidsOf_drop_mem {i : Nat} :
    ∀ a ∈ kidsOf (cs.drop (i + 1)), a ∈ others cs i ++ owned :=
  fun _ ha => List.mem_append_left _ (List.mem_append_right _ ha)

theorem kids_cut_perm {pre post : List Child} {as : List Addr} (owned : List Addr) :
    (as ++ (kidsOf pre ++ kidsOf post ++ owned)).Perm
      (kidsOf pre ++ (as ++ kidsOf post) ++ owned) := by
  simp only [List.append_assoc]
  exact List.perm_append_comm_assoc ..

theorem kidsOf_open {i : Nat} {slot : Child} (h : cs[i]? = some slot) (owned : List Addr) :
    (slot.addr?.toList ++ (others cs i ++ owned)).Perm (kidsOf cs ++ owned) := by
  conv_rhs => rw [Splice.eq_cut h]
  simp only [kidsOf_append, kidsOf_cons]
  exact kids_cut_perm owned

theorem kidsOf_set {i : Nat} (h : i < cs.length) (c : Child) (owned : List Addr) :
    (c.addr?.toList ++ (others cs i ++ owned)).Perm (kidsOf (cs.set i c) ++ owned) := by
  rw [Splice.set_eq h]
  simp only [kidsOf_append, kidsOf_cons]
  exact kids_cut_perm owned

theorem kidsOf_split {i : Nat} (h : i < cs.length) (l r : Child) (owned : List Addr) :
    (l.addr?.toList ++ r.addr?.toList ++ (others cs i ++ owned)).Perm
      (kidsOf ((cs.set i l).insertIdx (i + 1) r) ++ owned) := by
  rw [Splice.set_insertIdx_eq h]
  simp only [kidsOf_append, kidsOf_cons]
  rw [← List.append_assoc l.addr?.toList]
  exact kids_cut_perm owned

@[simp] theorem leaf_kids (es : Leaf ρ) : (Node.leaf es : Node ε ρ).kids = [] := rfl

@[simp] theorem emptied_kids (nd : Node ε ρ) : nd.emptied.kids = [] := rfl

@[simp] theorem interior_kids (t : Inner Child) :
    (Node.interior t : Node ε ρ).kids = kidsOf t.children := rfl

/-- The nodes a builder computed, moved behind fresh `Arc`s, take over the references they hold. -/
theorem allocGrown_spec {τ : Type} (mk : τ → Node ε ρ) (h : Heap ε ρ) (g : Grown τ)
    (owned : List Addr)
    (hc : Counted Node.kids h (g.nodes.flatMap (fun t => (mk t).kids) ++ owned)) :
    Counted Node.kids (allocGrown mk h g).2 ((allocGrown mk h g).1.nodes ++ owned) ∧
      (∀ live, Extends Node.kids live h (allocGrown mk h g).2) ∧
      (∀ b nd, h.node? b = some nd → (allocGrown mk h g).2.node? b = some nd) ∧
      (allocGrown mk h g).1.Rel (fun a t => (allocGrown mk h g).2.node? a = some (mk t)) g := by
  have hkeep : ∀ (h : Heap ε ρ) (nd : Node ε ρ) b nd', h.node? b = some nd' →
      (h.alloc nd).2.node? b = some nd' := by
    intro h nd b nd' hb
    obtain ⟨c, hcell, rfl⟩ := node?_eq_some.mp hb
    have hne : b ≠ h.cells.length := (Store.lt_of_cell hcell).ne
    simpa [Store.node?, Store.cell_alloc, hne] using hb
  have hnew : ∀ (h : Heap ε ρ) (nd : Node ε ρ), (h.alloc nd).2.node? h.cells.length = some nd := by
    intro h nd
    simp [Store.node?, Store.cell_alloc]
  cases g with
  | whole t =>
    simp only [Grown.nodes, List.flatMap_cons, List.flatMap_nil, List.append_nil] at hc
    exact ⟨hc.alloc, fun live => .alloc live h _, hkeep h _, hnew h _⟩
  | split l sep r =>
    simp only [Grown.nodes, List.flatMap_cons, List.flatMap_nil, List.append_nil,
      List.append_assoc] at hc
    have h1 := hc.alloc
    have h2 : Counted Node.kids (h.alloc (mk l)).2 ((mk r).kids ++ (h.cells.length :: owned)) :=
      h1.perm List.perm_middle.symm
    have h3 := h2.alloc
    have hlen : (h.alloc (mk l)).2.cells.length = h.cells.length + 1 := by simp [Store.alloc]
    refine ⟨?_, fun live => (Extends.alloc live h _).trans (.alloc live _ _),
      fun b nd hb => hkeep _ _ b nd (hkeep h _ b nd hb), hkeep _ _ _ _ (hnew h _), rfl, ?_⟩
    · refine h3.perm ?_
      simp only [Store.alloc, allocGrown, Grown.nodes, List.length_append, List.length_singleton]
      exact .swap _ _ _
    · have := hnew (h.alloc (mk l)).2 (mk r)
      rw [hlen] at this
      exact this

theorem allocLeaves_spec (disk : Disk ρ) (h : Heap ε ρ) (g : Grown (Leaf ρ))
    (hc : Counted Node.kids h owned) :
    Counted Node.kids (allocGrown Node.leaf h g).2 ((allocGrown Node.leaf h g).1.nodes ++ owned) ∧
      (∀ live, Extends Node.kids live h (allocGrown Node.leaf h g).2) ∧
      (allocGrown Node.leaf h g).1.Rel (Rep disk (allocGrown Node.leaf h g).2 0) g := by
  have hkids : g.nodes.flatMap (fun es => (Node.leaf es : Node ε ρ).kids) = [] := by
    cases g <;> rfl
  obtain ⟨h1, h2, -, h4⟩ := allocGrown_spec Node.leaf h g owned (by rwa [hkids])
  exact ⟨h1, h2, h4.mono (fun b _ es hb => Rep.leaf hb (Node.leaf_isLeafOf es))⟩

/-- `allocGrown_spec` for interiors. -/
theorem allocInteriors_spec {h : Heap ε ρ} {g : Grown (Inner Child)}
    {g' : Grown (Inner (Tree ρ n))} (hr : g.Rel (InnerRel (RepSlot disk (Rep disk h n))) g')
    (hc : Counted Node.kids h (g.nodes.flatMap (fun t => kidsOf t.children) ++ owned)) :
    Counted Node.kids (allocGrown Node.interior h g).2
        ((allocGrown Node.interior h g).1.nodes ++ owned) ∧
      (∀ live, Extends Node.kids live h (allocGrown Node.interior h g).2) ∧
      (allocGrown Node.interior h g).1.Rel (Rep disk (allocGrown Node.interior h g).2 (n + 1)) g' := by
  obtain ⟨h1, h2, h3, h4⟩ := allocGrown_spec Node.interior h g owned hc
  refine ⟨h1, h2, ?_⟩
  have hmono : ∀ {t : Inner Child} {u : Inner (Tree ρ n)}, InnerRel (RepSlot disk (Rep disk h n)) t u →
      InnerRel (RepSlot disk (Rep disk (allocGrown Node.interior h g).2 n)) t u := by
    exact fun htu => htu.keep h3
  revert h4
  generalize hres : allocGrown Node.interior h g = res
  intro h4
  rw [hres] at hmono
  obtain ⟨ga, h'⟩ := res
  match ga, g, g', h4, hr with
  | .whole a, .whole t, .whole u, h4, hr => exact Rep.inner h4 (hmono hr)
  | .split l s r, .split tl ts tr, .split ul us ur, ⟨hl, hs, hr'⟩, ⟨hrl, hrs, hrr⟩ =>
    exact ⟨Rep.inner hl (hmono hrl), hs.trans hrs, Rep.inner hr' (hmono hrr)⟩

end Jed.PMap
