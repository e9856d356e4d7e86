import Jed.Lib.Chain
import Jed.Lib.TotalOn
import Mathlib.Data.List.Perm.Basic

/-!
# Stable sorting

The stable sort of a list under a comparison that need not tell all elements apart, what determines
it (order, and the order of the input within each class of equal elements), and the merge of sorted
lists that takes equal elements from the earliest list first.
-/

namespace Jed.StableSort

variable {α : Type} (cmp : α → α → Ordering)

/-- The stable sort. -/
def stableSort (l : List α) : List α := l.mergeSort fun a b => (cmp a b).isLE

/-- Sorted, equal elements in any order. -/
def Sorted (l : List α) : Prop := l.Pairwise fun a b => (cmp a b).isLE

/-- The elements equal to `x`, in their order. -/
def sameAs (x : α) (l : List α) : List α := l.filter fun y => cmp x y == .eq

variable {cmp}

theorem sameAs_append (x : α) (l₁ l₂ : List α) :
    sameAs cmp x (l₁ ++ l₂) = sameAs cmp x l₁ ++ sameAs cmp x l₂ := List.filter_append ..

theorem mem_sameAs {x y : α} {l : List α} : y ∈ sameAs cmp x l ↔ y ∈ l ∧ cmp x y = .eq := by
  simp [sameAs]

theorem sameAs_cons_of_eq {x a : α} (h : cmp x a = .eq) (l : List α) :
    sameAs cmp x (a :: l) = a :: sameAs cmp x l := by simp [sameAs, h]

theorem sameAs_cons_of_ne {x a : α} (h : cmp x a ≠ .eq) (l : List α) :
    sameAs cmp x (a :: l) = sameAs cmp x l := by simp [sameAs, h]

theorem sameAs_eq_nil {x : α} {l : List α} (h : ∀ y ∈ l, cmp x y ≠ .eq) : sameAs cmp x l = [] := by
  simpa [sameAs] using h

variable [Std.TransCmp cmp]

theorem isLE_total (a b : α) : ((cmp a b).isLE || (cmp b a).isLE) = true := by
  have hswap : cmp b a = (cmp a b).swap := Std.OrientedCmp.eq_swap
  rw [hswap]
  cases cmp a b <;> rfl

theorem sorted_stableSort (l : List α) : Sorted cmp (stableSort cmp l) :=
  List.pairwise_mergeSort (fun _ _ _ => Std.TransCmp.isLE_trans) isLE_total l

omit [Std.TransCmp cmp] in
theorem perm_stableSort (l : List α) : (stableSort cmp l).Perm l := List.mergeSort_perm l _

/-- Equal elements stay in the order of the input. -/
theorem sameAs_stableSort (x : α) (l : List α) :
    sameAs cmp x (stableSort cmp l) = sameAs cmp x l := by
  have hclass : Sorted cmp (sameAs cmp x l) := by
    refine List.pairwise_of_forall_mem_list fun a ha b hb => ?_
    have hxa := (mem_sameAs.mp ha).2
    have hxb := (mem_sameAs.mp hb).2
    rw [← Std.TransCmp.congr_left hxa, hxb]
    rfl
  have hsub : (sameAs cmp x l).Sublist (stableSort cmp l) :=
    List.sublist_mergeSort (fun _ _ _ => Std.TransCmp.isLE_trans) isLE_total hclass
      (List.filter_sublist)
  have hself : sameAs cmp x (sameAs cmp x l) = sameAs cmp x l := by
    simp [sameAs]
  have hsub' : (sameAs cmp x l).Sublist (sameAs cmp x (stableSort cmp l)) := by
    rw [← hself]
    exact hsub.filter _
  exact (hsub'.eq_of_length ((perm_stableSort l).filter _).length_eq.symm).symm

theorem sameAs_self (a : α) (l : List α) : sameAs cmp a (a :: l) = a :: sameAs cmp a l :=
  sameAs_cons_of_eq Std.ReflCmp.compare_self l

/-- What is sorted is determined by its classes of equal elements. -/
theorem eq_of_sameAs {l₁ : List α} : ∀ {l₂ : List α}, Sorted cmp l₁ → Sorted cmp l₂ →
    (∀ x, sameAs cmp x l₁ = sameAs cmp x l₂) → l₁ = l₂ := by
  induction l₁ with
  | nil =>
    intro l₂ _ _ h
    cases l₂ with
    | nil => rfl
    | cons b l₂ =>
      have hb := h b
      rw [sameAs_self] at hb
      cases hb
  | cons a l₁ ih =>
    intro l₂ h₁ h₂ h
    cases l₂ with
    | nil =>
      have ha := h a
      rw [sameAs_self] at ha
      cases ha
    | cons b l₂ =>
      have h₁' := List.pairwise_cons.mp h₁
      have h₂' := List.pairwise_cons.mp h₂
      have hle : ∀ {c d : α} {l l' : List α}, (∀ y ∈ l, (cmp c y).isLE) →
          (∀ x, sameAs cmp x (c :: l) = sameAs cmp x (d :: l')) → (cmp c d).isLE := by
        intro c d l l' hc hx
        have hd : d ∈ sameAs cmp d (c :: l) := by
          rw [hx d, sameAs_self]
          exact List.mem_cons_self
        cases List.mem_cons.mp (mem_sameAs.mp hd).1 with
        | inl heq =>
          have hself : cmp c c = .eq := Std.ReflCmp.compare_self
          rw [heq, hself]
          rfl
        | inr hmem => exact hc d hmem
      have hab : cmp a b = .eq :=
        Std.OrientedCmp.isLE_antisymm (hle h₁'.1 h) (hle h₂'.1 fun x => (h x).symm)
      have ha := h a
      rw [sameAs_self, sameAs_cons_of_eq hab] at ha
      obtain ⟨rfl, -⟩ := List.cons.inj ha
      rw [ih h₁'.2 h₂'.2]
      intro x
      have hx := h x
      by_cases hxa : cmp x a = .eq
      · rw [sameAs_cons_of_eq hxa, sameAs_cons_of_eq hxa] at hx
        exact (List.cons.inj hx).2
      · rwa [sameAs_cons_of_ne hxa, sameAs_cons_of_ne hxa] at hx

theorem eq_stableSort {l out : List α} (hsorted : Sorted cmp out)
    (hclass : ∀ x, sameAs cmp x out = sameAs cmp x l) : out = stableSort cmp l :=
  eq_of_sameAs hsorted (sorted_stableSort l) fun x =>
    (hclass x).trans (sameAs_stableSort x l).symm

variable (cmp) in
/-- The head `a` of list `i` goes out next: the heads of earlier lists are greater, and no head is
    less. -/
structure Front (ls : List (List α)) (i : ℕ) (a : α) (rest : List α) : Prop where
  here : ls[i]? = some (a :: rest)
  least : ∀ j b more, ls[j]? = some (b :: more) → cmp a b = .lt ∨ cmp a b = .eq ∧ i ≤ j

variable (cmp) in
/-- `out` merges the lists, the earliest of equal heads first. -/
inductive Merges : List (List α) → List α → Prop where
  | done {ls : List (List α)} (h : ∀ l ∈ ls, l = []) : Merges ls []
  | next {ls : List (List α)} {i : ℕ} {a : α} {rest out : List α} (hf : Front cmp ls i a rest)
      (h : Merges (ls.set i rest) out) : Merges ls (a :: out)

omit [Std.TransCmp cmp] in
theorem Front.lt {ls : List (List α)} {i : ℕ} {a : α} {rest : List α} (hf : Front cmp ls i a rest) :
    i < ls.length := (List.getElem?_eq_some_iff.mp hf.here).1

omit [Std.TransCmp cmp] in
theorem sorted_rest {ls : List (List α)} {i : ℕ} {a : α} {rest : List α}
    (hf : Front cmp ls i a rest) (hs : ∀ l ∈ ls, Sorted cmp l) :
    ∀ l ∈ ls.set i rest, Sorted cmp l := by
  intro l hl
  cases List.mem_or_eq_of_mem_set hl with
  | inl h => exact hs l h
  | inr h =>
    rw [h]
    exact (List.pairwise_cons.mp (hs _ (List.mem_of_getElem? hf.here))).2

/-- Nothing in list `j` is less than the front, and nothing before it is equal. -/
theorem Front.least_mem {ls : List (List α)} {i : ℕ} {a : α} {rest : List α}
    (hf : Front cmp ls i a rest) (hs : ∀ l ∈ ls, Sorted cmp l) {j : ℕ} {l : List α}
    (hj : ls[j]? = some l) {b : α} (hb : b ∈ l) :
    (cmp a b).isLE ∧ (j < i → cmp a b = .lt) := by
  cases l with
  | nil => cases hb
  | cons c more =>
    have hsorted := List.pairwise_cons.mp (hs _ (List.mem_of_getElem? hj))
    have hcb : (cmp c b).isLE := by
      cases List.mem_cons.mp hb with
      | inl h =>
        have hself : cmp c c = .eq := Std.ReflCmp.compare_self
        rw [h, hself]
        rfl
      | inr h => exact hsorted.1 b h
    cases hf.least j c more hj with
    | inl hlt =>
      have hab : cmp a b = .lt := Std.TransCmp.lt_of_lt_of_isLE hlt hcb
      rw [hab]
      exact ⟨rfl, fun _ => rfl⟩
    | inr heq =>
      refine ⟨Std.TransCmp.isLE_trans (by rw [heq.1]; rfl) hcb, fun hlt => ?_⟩
      omega

/-- What a merge puts out is sorted. -/
theorem Merges.sorted {ls : List (List α)} {out : List α} (h : Merges cmp ls out)
    (hs : ∀ l ∈ ls, Sorted cmp l) : Sorted cmp out ∧ ∀ b ∈ out, ∃ l ∈ ls, b ∈ l := by
  induction h with
  | done h => exact ⟨List.Pairwise.nil, fun _ hb => by cases hb⟩
  | @next ls i a rest out hf h ih =>
    obtain ⟨hout, hmem⟩ := ih (sorted_rest hf hs)
    have hfrom : ∀ b ∈ out, ∃ l ∈ ls, b ∈ l := by
      intro b hb
      obtain ⟨l, hl, hbl⟩ := hmem b hb
      cases List.mem_or_eq_of_mem_set hl with
      | inl h => exact ⟨l, h, hbl⟩
      | inr h =>
        refine ⟨_, List.mem_of_getElem? hf.here, List.mem_cons_of_mem _ ?_⟩
        rwa [← h]
    refine ⟨List.pairwise_cons.mpr ⟨fun b hb => ?_, hout⟩, fun b hb => ?_⟩
    · obtain ⟨l, hl, hbl⟩ := hfrom b hb
      obtain ⟨j, hj⟩ := List.mem_iff_getElem?.mp hl
      exact (hf.least_mem hs hj hbl).1
    · cases List.mem_cons.mp hb with
      | inl h =>
        rw [h]
        exact ⟨_, List.mem_of_getElem? hf.here, List.mem_cons_self⟩
      | inr h => exact hfrom b h

/-- A merge keeps the classes of the lists, one list after another. -/
theorem Merges.sameAs {ls : List (List α)} {out : List α} (h : Merges cmp ls out)
    (hs : ∀ l ∈ ls, Sorted cmp l) (x : α) :
    StableSort.sameAs cmp x out = StableSort.sameAs cmp x ls.flatten := by
  induction h with
  | done h => rw [List.flatten_eq_nil_iff.mpr h]
  | @next ls i a rest out hf h ih =>
    have ih := ih (sorted_rest hf hs)
    rw [Splice.set_eq hf.lt] at ih
    rw [Splice.eq_cut hf.here]
    simp only [List.flatten_append, List.flatten_cons, sameAs_append] at ih ⊢
    by_cases hxa : cmp x a = .eq
    · have hbefore : StableSort.sameAs cmp x (ls.take i).flatten = [] := by
        refine sameAs_eq_nil fun b hb hxb => ?_
        obtain ⟨l, hl, hbl⟩ := List.mem_flatten.mp hb
        obtain ⟨j, hj⟩ := List.mem_iff_getElem?.mp hl
        rw [List.getElem?_take] at hj
        split at hj
        · rename_i hji
          have hlt := (hf.least_mem hs hj hbl).2 hji
          rw [← Std.TransCmp.congr_left hxa, hxb] at hlt
          cases hlt
        · cases hj
      rw [hbefore, List.nil_append] at ih ⊢
      rw [sameAs_cons_of_eq hxa, sameAs_cons_of_eq hxa, ih, List.cons_append]
    · rw [sameAs_cons_of_ne hxa, sameAs_cons_of_ne hxa, ih]

theorem Merges.eq_stableSort {ls : List (List α)} {out : List α} (h : Merges cmp ls out)
    (hs : ∀ l ∈ ls, Sorted cmp l) : out = stableSort cmp ls.flatten :=
  StableSort.eq_stableSort (h.sorted hs).1 (h.sameAs hs)

theorem stableSort_flatten (chunks : List (List α)) :
    stableSort cmp (chunks.map (stableSort cmp)).flatten = stableSort cmp chunks.flatten := by
  refine StableSort.eq_stableSort (sorted_stableSort _) fun x => ?_
  rw [sameAs_stableSort]
  induction chunks with
  | nil => rfl
  | cons c chunks ih =>
    rw [List.map_cons, List.flatten_cons, List.flatten_cons, sameAs_append, sameAs_append,
      sameAs_stableSort, ih]

end Jed.StableSort

/-!
## Sorting by comparisons that are total on some of the values

The merge sort of a list of values in `S`, by a comparison that is a total order there: it is sorted, and
it is the one list in which lesser values come first and equal ones in the order of the input.
-/

namespace Jed.StableSort

open KeyCodes

variable {α β : Type} {S : α → Prop} {cmp : α → α → Ordering}

theorem isLE_iff_ne_gt {o : Ordering} : o.isLE = true ↔ o ≠ .gt := by cases o <;> decide

/-- The comparison of the values in `S`. -/
def cmpOn (S : α → Prop) (cmp : α → α → Ordering) (a b : Subtype S) : Ordering := cmp a.1 b.1

theorem transCmp_cmpOn (h : TotalOn S cmp) : Std.TransCmp (cmpOn S cmp) where
  eq_swap {a b} := h.swap b.2 a.2
  isLE_trans {a b c} hab hbc := by
    rw [isLE_iff_ne_gt] at *
    exact h.trans a.2 b.2 c.2 hab hbc

variable (cmp) in
theorem stableSort_eq_map {l : List α} (hS : ∀ x ∈ l, S x) :
    stableSort cmp l = (stableSort (cmpOn S cmp) (l.attachWith S hS)).map Subtype.val := by
  have hmap : ∀ a ∈ l.attachWith S hS, ∀ b ∈ l.attachWith S hS,
      (cmpOn S cmp a b).isLE = (cmp a.1 b.1).isLE := fun _ _ _ _ => rfl
  have hsort := List.map_mergeSort (s := fun a b => (cmp a b).isLE) hmap
  rw [List.attachWith_map_subtype_val] at hsort
  exact hsort.symm

theorem pairwise_stableSort (h : TotalOn S cmp) {l : List α} (hS : ∀ x ∈ l, S x) :
    (stableSort cmp l).Pairwise fun a b => cmp a b ≠ .gt := by
  have := transCmp_cmpOn h
  rw [stableSort_eq_map cmp hS, List.pairwise_map]
  exact (@sorted_stableSort _ (cmpOn S cmp) _ _).imp isLE_iff_ne_gt.mp

/-- What keeps equal elements in one strict order, the order of the input, is the stable sort. -/
theorem eq_stableSort_of_tie (h : TotalOn S cmp) {tie : α → α → Prop}
    (hasymm : ∀ a b, tie a b → ¬tie b a) {l out : List α} (hS : ∀ x ∈ l, S x) (hperm : out.Perm l)
    (hl : l.Pairwise tie)
    (hout : out.Pairwise fun a b => cmp a b = .lt ∨ cmp a b = .eq ∧ tie a b) :
    out = stableSort cmp l := by
  have := transCmp_cmpOn h
  have hSout : ∀ x ∈ out, S x := fun x hx => hS x (hperm.mem_iff.mp hx)
  have hvals : ∀ {l : List α} (hl : ∀ x ∈ l, S x), (l.attachWith S hl).map Subtype.val = l :=
    List.attachWith_map_subtype_val
  rw [stableSort_eq_map cmp hS, ← hvals hSout]
  congr 1
  rw [← hvals hSout, List.pairwise_map] at hout
  rw [← hvals hS, List.pairwise_map] at hl
  refine eq_stableSort (hout.imp fun hab => ?_) fun x => ?_
  · cases hab with
    | inl hab =>
      rw [cmpOn, hab]
      rfl
    | inr hab =>
      rw [cmpOn, hab.1]
      rfl
  · have hclass : (sameAs (cmpOn S cmp) x (out.attachWith S hSout)).Pairwise fun a b =>
        tie a.1 b.1 := by
      have hpair := hout.sublist (List.filter_sublist (p := fun y => cmpOn S cmp x y == .eq))
      refine hpair.imp_of_mem fun {a b} ha hb hab => ?_
      have hxa := (mem_sameAs.mp ha).2
      have hxb := (mem_sameAs.mp hb).2
      have heq : cmpOn S cmp a b = .eq := by
        rw [← Std.TransCmp.congr_left hxa, hxb]
      cases hab with
      | inl hlt =>
        rw [cmpOn, hlt] at heq
        cases heq
      | inr hab => exact hab.2
    refine List.Perm.eq_of_pairwise (fun a b _ _ hab hba => absurd hba (hasymm _ _ hab)) hclass
      (hl.sublist List.filter_sublist) (List.Perm.filter _ ?_)
    rwa [← List.map_perm_map_iff Subtype.val_injective, hvals, hvals]

end Jed.StableSort
