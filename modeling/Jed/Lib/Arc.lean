import Jed.Lib.Chain

/-!
# Reference-counted cells

A store of cells with strong counts, as `Arc` keeps them. A node holds references to other cells
(`kids`); every other reference in existence is held by somebody outside the store, who is said to
own it. `Counted` says that the counts are exact for a given list of owned references, and `Extends`
that nothing reachable through a list of references changed. The fact that makes in-place editing
safe is `Counted.unreachable`: a cell with one strong reference, owned here, is reached through no
other reference.
-/

namespace Arc

/-- An allocation. -/
abbrev Addr := Nat

/-- A node and the number of references to it. -/
structure Cell (ν : Type) where
  node : ν
  strong : Nat

/-- The cells allocated so far, in order; a freed cell is `none`. -/
structure Store (ν : Type) where
  cells : List (Option (Cell ν))

variable {ν : Type}

namespace Store

/-- The live cell at an address. -/
def cell (s : Store ν) (a : Addr) : Option (Cell ν) := (s.cells[a]?).join

/-- The node behind a live reference. -/
def node? (s : Store ν) (a : Addr) : Option ν := (s.cell a).map Cell.node

/-- `Arc::strong_count`; a freed cell has none. -/
def strong (s : Store ν) (a : Addr) : Nat := ((s.cell a).map Cell.strong).getD 0

/-- Overwrite the cell at an address. -/
def put (s : Store ν) (a : Addr) (c : Option (Cell ν)) : Store ν := ⟨s.cells.set a c⟩

/-- `Arc::new`: a fresh cell, owned by the caller. -/
def alloc (s : Store ν) (nd : ν) : Addr × Store ν :=
  (s.cells.length, ⟨s.cells ++ [some ⟨nd, 1⟩]⟩)

/-- `Arc::clone`. -/
def clone (s : Store ν) (a : Addr) : Store ν :=
  match s.cell a with
  | none => s
  | some c => s.put a (some { c with strong := c.strong + 1 })

/-- `clone` of every reference in a list. -/
def cloneAll (s : Store ν) (as : List Addr) : Store ν := as.foldl Store.clone s

/-- Whether `Arc::get_mut` succeeds: there is no other reference to the cell. -/
def isUnique (s : Store ν) (a : Addr) : Bool := s.strong a == 1

/-- The exclusive borrow `Arc::get_mut` gives: the node leaves the store while it is edited. -/
def checkOut (s : Store ν) (a : Addr) : Store ν := s.put a none

/-- The end of the borrow: the edited node is back, still with its one reference. -/
def checkIn (s : Store ν) (a : Addr) (nd : ν) : Store ν := s.put a (some ⟨nd, 1⟩)

/-- The references the live cells hold: what dropping them all would come to. -/
def held (kids : ν → List Addr) (s : Store ν) : Nat :=
  (s.cells.map (fun c => ((c.map (fun c => (kids c.node).length)).getD 0))).sum

variable {a : Addr} {c : Cell ν}

theorem cell_eq_some {s : Store ν} :
    s.cell a = some c ↔ s.cells[a]? = some (some c) := by
  simp [cell, Option.join_eq_some_iff]

theorem lt_of_cell {s : Store ν} (h : s.cell a = some c) :
    a < s.cells.length :=
  (List.getElem?_eq_some_iff.mp (cell_eq_some.mp h)).1

theorem cell_put {s : Store ν} (h : a < s.cells.length) (c : Option (Cell ν))
    (b : Addr) : (s.put a c).cell b = if b = a then c else s.cell b := by
  by_cases hb : b = a
  · subst hb
    simp [cell, put, h]
  · simp [cell, put, hb, List.getElem?_set_ne (Ne.symm hb)]

theorem cell_alloc (s : Store ν) (nd : ν) (b : Addr) :
    (s.alloc nd).2.cell b = if b = s.cells.length then some ⟨nd, 1⟩ else s.cell b := by
  by_cases hb : b = s.cells.length
  · simp [cell, alloc, hb]
  · rcases Nat.lt_or_ge b s.cells.length with h | h
    · simp [cell, alloc, hb, List.getElem?_append_left h]
    · have hlt : s.cells.length < b := lt_of_le_of_ne h (Ne.symm hb)
      have h1 : (s.cells ++ [some (⟨nd, 1⟩ : Cell ν)])[b]? = none := by
        simp only [List.getElem?_eq_none_iff, List.length_append, List.length_singleton]
        exact hlt
      simp [cell, alloc, hb, h1, List.getElem?_eq_none h]

@[simp] theorem length_put (s : Store ν) (a : Addr) (c : Option (Cell ν)) :
    (s.put a c).cells.length = s.cells.length := by simp [put]

theorem held_put_none {kids : ν → List Addr} {s : Store ν}
    (h : s.cell a = some c) : (s.put a none).held kids + (kids c.node).length = s.held kids := by
  have hget := cell_eq_some.mp h
  obtain ⟨hlt, -⟩ := List.getElem?_eq_some_iff.mp hget
  unfold held put
  rw [Splice.set_eq hlt]
  conv_rhs => rw [Splice.eq_cut hget]
  simp
  ring

theorem held_put_some {kids : ν → List Addr} {s : Store ν} (h : s.cell a = some c) (strong : Nat) :
    (s.put a (some { c with strong := strong })).held kids = s.held kids := by
  have hget := cell_eq_some.mp h
  obtain ⟨hlt, -⟩ := List.getElem?_eq_some_iff.mp hget
  unfold held put
  rw [Splice.set_eq hlt]
  conv_rhs => rw [Splice.eq_cut hget]
  simp

/-- Drop a list of references: a cell whose last reference goes is freed, and its own references
    are dropped in turn. -/
def dropAll (kids : ν → List Addr) (s : Store ν) : List Addr → Store ν
  | [] => s
  | a :: work =>
    match _h : s.cell a with
    | none => dropAll kids s work
    | some c =>
      if 1 < c.strong then
        dropAll kids (s.put a (some { c with strong := c.strong - 1 })) work
      else dropAll kids (s.put a none) (kids c.node ++ work)
termination_by work => s.held kids + work.length
decreasing_by
  · exact Nat.lt_succ_self _
  · rw [held_put_some _h]
    exact Nat.lt_succ_self _
  · have hheld : (s.put a none).held kids + _ = s.held kids := held_put_none _h
    rw [List.length_append, List.length_cons]
    omega

/-- `drop` of one `Arc`. -/
def drop (kids : ν → List Addr) (s : Store ν) (a : Addr) : Store ν := s.dropAll kids [a]

end Store

open Store

variable (kids : ν → List Addr)

/-- The references to `a` a cell holds. -/
def held (a : Addr) : Option (Cell ν) → Nat
  | none => 0
  | some c => (kids c.node).count a

/-- The references to `a` the live cells hold. -/
def inner (s : Store ν) (a : Addr) : Nat := (s.cells.map (held kids a)).sum

/-- The strong counts are exact: `owned` lists every reference held outside the store. -/
def Counted (s : Store ν) (owned : List Addr) : Prop :=
  ∀ a, owned.count a + inner kids s a = s.strong a

/-- `b` is reachable from `a`. -/
inductive Reach (s : Store ν) : Addr → Addr → Prop where
  | refl (a : Addr) : Reach s a a
  | step {a b c : Addr} {nd : ν} : Reach s a b → s.node? b = some nd → c ∈ kids nd → Reach s a c

/-- Everything reachable from `owned` is as it was, and no freed cell came back. -/
structure Extends (owned : List Addr) (s s' : Store ν) : Prop where
  keeps : ∀ r ∈ owned, ∀ b nd, Reach kids s r b → s.node? b = some nd → s'.node? b = some nd
  grows : s.cells.length ≤ s'.cells.length
  gone : ∀ x < s.cells.length, s.cell x = none → s'.cell x = none

variable {kids}

variable {b : Addr}

theorem inner_put (kids : ν → List Addr) {s : Store ν} (h : b < s.cells.length) (c : Option (Cell ν))
    (a : Addr) :
    inner kids (s.put b c) a + held kids a (s.cell b) = inner kids s a + held kids a c := by
  have hget : s.cells[b]? = some (s.cell b) := by
    simp [cell, List.getElem?_eq_getElem h]
  unfold inner put
  rw [Splice.set_eq h]
  conv_rhs => rw [Splice.eq_cut hget]
  simp only [List.map_append, List.map_cons, List.sum_append, List.sum_cons]
  omega

theorem inner_alloc (s : Store ν) (nd : ν) (a : Addr) :
    inner kids (s.alloc nd).2 a = inner kids s a + (kids nd).count a := by
  simp [inner, alloc, held]

variable {a : Addr} {nd : ν}

theorem node?_eq_some {s : Store ν} :
    s.node? a = some nd ↔ ∃ c, s.cell a = some c ∧ c.node = nd := by
  simp [node?]

theorem inner_pos {s : Store ν} (hb : s.node? b = some nd) (ha : a ∈ kids nd) : 0 < inner kids s a := by
  obtain ⟨c, hc, rfl⟩ := node?_eq_some.mp hb
  have hget := cell_eq_some.mp hc
  unfold inner
  rw [Splice.eq_cut hget]
  have : 0 < (kids c.node).count a := List.count_pos_iff.mpr ha
  simp only [List.map_append, List.map_cons, List.sum_append, List.sum_cons, held]
  omega

theorem strong_of_cell {s : Store ν} {c : Cell ν} (h : s.cell a = some c) :
    s.strong a = c.strong := by simp [strong, h]

theorem exists_cell_of_strong {s : Store ν} (h : 0 < s.strong a) :
    ∃ c, s.cell a = some c ∧ c.strong = s.strong a := by
  unfold strong at h ⊢
  cases hc : s.cell a with
  | none => simp [hc] at h
  | some c => exact ⟨c, rfl, by simp⟩

section Counted

variable {s : Store ν} {owned : List Addr}

theorem Counted.perm {owned' : List Addr} (h : Counted kids s owned) (hp : owned.Perm owned') :
    Counted kids s owned' :=
  fun a => hp.count_eq a ▸ h a

variable {a : Addr}

theorem Counted.owned_live (h : Counted kids s owned) (ha : a ∈ owned) :
    ∃ c, s.cell a = some c ∧ 0 < c.strong := by
  have hpos : 0 < owned.count a := List.count_pos_iff.mpr ha
  have hs := h a
  obtain ⟨c, hc, heq⟩ := exists_cell_of_strong (s := s) (a := a) (by omega)
  exact ⟨c, hc, by omega⟩

variable {nd : ν}

theorem Counted.kid_live (h : Counted kids s owned) {b : Addr}
    (hb : s.node? b = some nd) (ha : a ∈ kids nd) : ∃ c, s.cell a = some c ∧ 0 < c.strong := by
  have hpos := inner_pos hb ha
  have hs := h a
  obtain ⟨c, hc, heq⟩ := exists_cell_of_strong (s := s) (a := a) (by omega)
  exact ⟨c, hc, by omega⟩

/-- A cell whose one strong reference is the one owned here is held by no cell, and reached from no
    other reference. -/
theorem Counted.unreachable (h : Counted kids s (a :: owned)) (hu : s.strong a ≤ 1) :
    inner kids s a = 0 ∧ a ∉ owned ∧ ∀ r, r ≠ a → ¬Reach kids s r a := by
  have ha := h a
  rw [List.count_cons_self] at ha
  refine ⟨by omega, fun hr => ?_, fun r hr hreach => ?_⟩
  · have : 0 < owned.count a := List.count_pos_iff.mpr hr
    omega
  · cases hreach with
    | refl => exact hr rfl
    | step _ hb hk =>
      have := inner_pos hb hk
      omega

/-- A new cell takes over the references its node holds. -/
theorem Counted.alloc (h : Counted kids s (kids nd ++ owned)) :
    Counted kids (s.alloc nd).2 ((s.alloc nd).1 :: owned) := by
  intro a
  have ha := h a
  have hfresh : s.strong s.cells.length = 0 := by simp [Store.strong, cell]
  rw [inner_alloc]
  by_cases heq : a = s.cells.length
  · subst heq
    have hs : (s.alloc nd).2.strong s.cells.length = 1 := by simp [Store.strong, cell_alloc]
    rw [hs, show (s.alloc nd).1 = s.cells.length from rfl, List.count_cons_self]
    rw [List.count_append] at ha
    omega
  · have hs : (s.alloc nd).2.strong a = s.strong a := by simp [Store.strong, cell_alloc, heq]
    rw [hs, show (s.alloc nd).1 = s.cells.length from rfl, List.count_cons_of_ne (Ne.symm heq)]
    rw [List.count_append] at ha
    omega

theorem Counted.clone {c : Cell ν} (h : Counted kids s owned) (hc : s.cell a = some c) :
    Counted kids (s.clone a) (a :: owned) := by
  intro b
  have hb := h b
  have hlt := lt_of_cell hc
  have hinner := inner_put kids hlt (some { c with strong := c.strong + 1 }) b
  have hheld : held kids b (some { c with strong := c.strong + 1 }) = held kids b (some c) := rfl
  rw [hc, hheld] at hinner
  simp only [Store.clone, hc]
  by_cases heq : b = a
  · subst heq
    rw [List.count_cons_self]
    simp only [Store.strong, cell_put hlt, if_true, hc, Option.map_some, Option.getD_some] at hb ⊢
    omega
  · rw [List.count_cons_of_ne (Ne.symm heq)]
    simp only [Store.strong, cell_put hlt, heq, if_false] at hb ⊢
    omega

/-- While a node is borrowed, its references are owned by the borrower. -/
theorem Counted.checkOut (h : Counted kids s (a :: owned)) (hn : s.node? a = some nd) (hu : s.strong a = 1) :
    Counted kids (s.checkOut a) (kids nd ++ owned) := by
  obtain ⟨c, hc, rfl⟩ := node?_eq_some.mp hn
  have hlt := lt_of_cell hc
  intro b
  have hb := h b
  have hinner := inner_put kids hlt none b
  rw [hc] at hinner
  simp only [held] at hinner
  rw [List.count_append]
  by_cases heq : b = a
  · subst heq
    rw [List.count_cons_self] at hb
    have hs : (s.checkOut b).strong b = 0 := by simp [Store.checkOut, Store.strong, cell_put hlt]
    rw [hs]
    unfold Store.checkOut
    omega
  · rw [List.count_cons_of_ne (Ne.symm heq)] at hb
    have hs : (s.checkOut a).strong b = s.strong b := by
      simp [Store.checkOut, Store.strong, cell_put hlt, heq]
    rw [hs]
    unfold Store.checkOut
    omega

theorem Counted.checkIn (h : Counted kids s (kids nd ++ owned))
    (hlt : a < s.cells.length) (hgone : s.cell a = none) :
    Counted kids (s.checkIn a nd) (a :: owned) := by
  intro b
  have hb := h b
  have hinner := inner_put kids hlt (some ⟨nd, 1⟩) b
  rw [hgone] at hinner
  simp only [held] at hinner
  rw [List.count_append] at hb
  unfold Store.checkIn
  by_cases heq : b = a
  · subst heq
    have hs0 : s.strong b = 0 := by simp [Store.strong, hgone]
    have hs1 : (s.put b (some ⟨nd, 1⟩)).strong b = 1 := by simp [Store.strong, cell_put hlt]
    rw [List.count_cons_self]
    omega
  · have hs : (s.put a (some ⟨nd, 1⟩)).strong b = s.strong b := by
      simp [Store.strong, cell_put hlt, heq]
    rw [List.count_cons_of_ne (Ne.symm heq)]
    omega

end Counted

theorem Reach.trans {s : Store ν} {c : Addr} (h : Reach kids s a b) (h' : Reach kids s b c) :
    Reach kids s a c := by
  induction h' with
  | refl => exact h
  | step _ hn hk ih => exact ih.step hn hk

theorem Reach.kid {s : Store ν} {c : Addr} (hn : s.node? a = some nd) (hb : b ∈ kids nd)
    (h : Reach kids s b c) : Reach kids s a c :=
  ((Reach.refl a).step hn hb).trans h

section Extends

variable {owned : List Addr} {s s' s'' : Store ν}

theorem Extends.refl (owned : List Addr) (s : Store ν) : Extends kids owned s s :=
  ⟨fun _ _ _ _ _ h => h, le_rfl, fun _ _ h => h⟩

theorem Extends.mono {owned' : List Addr} (h : Extends kids owned s s')
    (hsub : ∀ a ∈ owned', a ∈ owned) : Extends kids owned' s s' :=
  ⟨fun r hr => h.keeps r (hsub r hr), h.grows, h.gone⟩

theorem Extends.reach (h : Extends kids owned s s') {r b : Addr} (hr : r ∈ owned)
    (hb : Reach kids s r b) : Reach kids s' r b := by
  induction hb with
  | refl => exact .refl _
  | step hpre hn hk ih => exact ih.step (h.keeps r hr _ _ hpre hn) hk

theorem Extends.trans (h : Extends kids owned s s') (h' : Extends kids owned s' s'') :
    Extends kids owned s s'' where
  keeps r hr b nd hb hn := h'.keeps r hr b nd (h.reach hr hb) (h.keeps r hr b nd hb hn)
  grows := h.grows.trans h'.grows
  gone x hx hx' := h'.gone x (hx.trans_le h.grows) (h.gone x hx hx')

variable {a : Addr}

/-- Overwriting a cell that no owned reference reaches. -/
theorem Extends.put (hlt : a < s.cells.length) (c : Option (Cell ν))
    (hno : ∀ r ∈ owned, ¬Reach kids s r a) (hgone : s.cell a = none → c = none) :
    Extends kids owned s (s.put a c) where
  keeps r hr b nd hb hn := by
    have hne : b ≠ a := fun heq => hno r hr (heq ▸ hb)
    simpa [node?, cell_put hlt, hne] using hn
  grows := by simp
  gone x hx hx' := by
    rw [cell_put hlt]
    split
    · rename_i heq
      exact hgone (heq ▸ hx')
    · exact hx'

theorem Extends.alloc (owned : List Addr) (s : Store ν) (nd : ν) :
    Extends kids owned s (s.alloc nd).2 where
  keeps r hr b nd' hb hn := by
    obtain ⟨c, hc, rfl⟩ := node?_eq_some.mp hn
    have hne : b ≠ s.cells.length := (lt_of_cell hc).ne
    simpa [node?, cell_alloc, hne] using hn
  grows := by simp [Store.alloc]
  gone x hx hx' := by
    rw [cell_alloc, if_neg hx.ne]
    exact hx'

/-- Changing counts alone changes nothing an owner sees. -/
theorem Extends.recount {c : Cell ν} (owned : List Addr) (hc : s.cell a = some c)
    (k : Nat) : Extends kids owned s (s.put a (some { c with strong := k })) where
  keeps r hr b nd hb hn := by
    rw [node?, cell_put (lt_of_cell hc)]
    split
    · rename_i heq
      subst heq
      simpa [node?, hc] using hn
    · exact hn
  grows := by simp
  gone x hx hx' := by
    rw [cell_put (lt_of_cell hc)]
    split
    · rename_i heq
      subst heq
      rw [hc] at hx'
      cases hx'
    · exact hx'

theorem Extends.clone (owned : List Addr) (s : Store ν) (a : Addr) :
    Extends kids owned s (s.clone a) := by
  unfold Store.clone
  split
  · exact .refl _ _
  · rename_i c hc
    exact .recount owned hc _

/-- Dropping references keeps the counts exact and everything still owned as it was. -/
theorem dropAll_spec (s : Store ν) (work : List Addr) (h : Counted kids s (work ++ owned)) :
    Counted kids (s.dropAll kids work) owned ∧ Extends kids owned s (s.dropAll kids work) := by
  induction s, work using Store.dropAll.induct kids with
  | case1 s =>
    rw [Store.dropAll]
    exact ⟨h, .refl _ _⟩
  | case2 s a work hc ih =>
    obtain ⟨c, hc', -⟩ := h.owned_live (a := a) (by simp)
    rw [hc] at hc'
    cases hc'
  | case3 s a work c hc hlt ih =>
    rw [Store.dropAll]
    split
    · rename_i heq
      rw [hc] at heq
      cases heq
    rename_i c' heq
    obtain rfl : c = c' := Option.some.inj (hc.symm.trans heq)
    rw [if_pos hlt]
    have hput : Extends kids owned s _ := Extends.recount owned hc (c.strong - 1)
    obtain ⟨h1, h2⟩ := ih (fun b => by
      have hb := h b
      have hinner := inner_put kids (lt_of_cell hc)
        (some { c with strong := c.strong - 1 }) b
      have hheld : held kids b (some { c with strong := c.strong - 1 }) = held kids b (some c) := rfl
      rw [hc, hheld] at hinner
      by_cases hba : b = a
      · subst hba
        rw [List.cons_append, List.count_cons_self] at hb
        simp only [Store.strong, cell_put (lt_of_cell hc), if_true, hc, Option.map_some,
          Option.getD_some] at hb ⊢
        omega
      · rw [List.cons_append, List.count_cons_of_ne (Ne.symm hba)] at hb
        simp only [Store.strong, cell_put (lt_of_cell hc), hba, if_false] at hb ⊢
        omega)
    exact ⟨h1, hput.trans h2⟩
  | case4 s a work c hc hlt ih =>
    rw [Store.dropAll]
    split
    · rename_i heq
      rw [hc] at heq
      cases heq
    rename_i c' heq
    obtain rfl : c = c' := Option.some.inj (hc.symm.trans heq)
    rw [if_neg hlt]
    have hone : s.strong a = 1 := by
      have ha := h a
      rw [List.cons_append, List.count_cons_self] at ha
      rw [strong_of_cell hc] at ha ⊢
      omega
    have hput : Extends kids owned s _ := Extends.put (lt_of_cell hc) none
      (fun r hr => by
        obtain ⟨-, hnot, hno⟩ := h.unreachable hone.le
        refine hno r (fun heq => hnot ?_)
        exact heq ▸ List.mem_append_right _ hr) (fun _ => rfl)
    obtain ⟨h1, h2⟩ := ih (by
      rw [List.append_assoc]
      exact Counted.checkOut h (node?_eq_some.mpr ⟨c, hc, rfl⟩) hone)
    exact ⟨h1, hput.trans h2⟩

theorem drop_spec (h : Counted kids s (a :: owned)) :
    Counted kids (s.drop kids a) owned ∧ Extends kids owned s (s.drop kids a) :=
  dropAll_spec s [a] h

theorem cloneAll_spec {as : List Addr} : ∀ {s : Store ν} {owned : List Addr},
    Counted kids s owned → (∀ a ∈ as, ∃ c, s.cell a = some c) →
    Counted kids (s.cloneAll as) (as ++ owned) ∧ ∀ live, Extends kids live s (s.cloneAll as) := by
  induction as with
  | nil => exact fun h _ => ⟨h, fun _ => .refl _ _⟩
  | cons a as ih =>
    intro s owned h hlive
    obtain ⟨c, hc⟩ := hlive a List.mem_cons_self
    obtain ⟨h1, h2⟩ := ih (h.clone hc) (fun b hb => by
      obtain ⟨c', hc'⟩ := hlive b (List.mem_cons_of_mem _ hb)
      simp only [Store.clone, hc, cell_put (lt_of_cell hc)]
      split
      · exact ⟨_, rfl⟩
      · exact ⟨c', hc'⟩)
    refine ⟨h1.perm List.perm_middle, fun live => ?_⟩
    exact (Extends.clone live s a).trans (h2 live)

/-- The exclusive borrow of an unshared node: its references are the borrower's, everything they and
    the other owners see stays, and giving an edited node back makes the store whole again, whatever
    else the borrower owns by then. -/
theorem borrow_spec {nd : ν} (h : Counted kids s (a :: owned)) (hn : s.node? a = some nd)
    (hu : s.isUnique a) :
    Counted kids (s.checkOut a) (kids nd ++ owned) ∧
      Extends kids (kids nd ++ owned) s (s.checkOut a) ∧
      ∀ (s1 : Store ν) (nd1 : ν) (owned1 : List Addr), Counted kids s1 (kids nd1 ++ owned1) →
        Extends kids owned (s.checkOut a) s1 →
        Counted kids (s1.checkIn a nd1) (a :: owned1) ∧ Extends kids owned s (s1.checkIn a nd1) ∧
          (s1.checkIn a nd1).node? a = some nd1 ∧
          ∀ b n, s1.node? b = some n → (s1.checkIn a nd1).node? b = some n := by
  have hone : s.strong a = 1 := by simpa [Store.isUnique] using hu
  obtain ⟨hin, hnot, hno⟩ := h.unreachable hone.le
  obtain ⟨c, hc, -⟩ := node?_eq_some.mp hn
  have hlt := lt_of_cell hc
  have hout : Extends kids (kids nd ++ owned) s (s.checkOut a) := by
    refine .put hlt none (fun r hr => hno r ?_) (fun _ => rfl)
    rintro rfl
    rcases List.mem_append.mp hr with hk | ho
    · have := inner_pos hn hk
      omega
    · exact hnot ho
  refine ⟨h.checkOut hn hone, hout, fun s1 nd1 owned1 h1 he => ?_⟩
  have hlt1 : a < s1.cells.length := by
    have := he.grows
    simp only [Store.checkOut, length_put] at this
    exact lt_of_lt_of_le hlt this
  have hgone : s1.cell a = none :=
    he.gone a (by simpa [Store.checkOut] using hlt) (by simp [Store.checkOut, cell_put hlt])
  have hkeep : ∀ b n, s1.node? b = some n → (s1.checkIn a nd1).node? b = some n := by
    intro b n hb
    have hne : b ≠ a := by
      rintro rfl
      simp [node?, hgone] at hb
    simpa [Store.checkIn, node?, cell_put hlt1, hne] using hb
  have howned := (hout.mono (fun r hr => List.mem_append_right _ hr)).trans he
  refine ⟨h1.checkIn hlt1 hgone, ⟨fun r hr b n hb hbn => hkeep b n (howned.keeps r hr b n hb hbn),
    ?_, fun x hx hx' => ?_⟩, by simp [Store.checkIn, node?, cell_put hlt1], hkeep⟩
  · simpa [Store.checkIn] using howned.grows
  · have hne : x ≠ a := by
      rintro rfl
      rw [hc] at hx'
      cases hx'
    simpa [Store.checkIn, cell_put hlt1, hne] using howned.gone x hx hx'

end Extends

end Arc
