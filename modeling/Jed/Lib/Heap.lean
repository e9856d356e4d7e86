import Jed.Lib.StableSort

/-!
# Binary heaps of bounded size

A heap in an array, the greatest element at the root, with its two sifts; and the selection of the least
`k` elements of a list by a heap of at most `k`, the greatest of which gives way to a lesser one.
-/

namespace Jed.Heap

open KeyCodes StableSort

variable {α : Type} (cmp : α → α → Ordering)

/-- Swaps an element with its parents, as far as it is greater. -/
def siftUp (items : Array α) (child : Nat) : Array α :=
  if h : 0 < child ∧ child < items.size then
    if cmp items[child] items[(child - 1) / 2] = .gt then
      siftUp (items.swap child ((child - 1) / 2)) ((child - 1) / 2)
    else items
  else items
termination_by child

/-- The greater child, the left one having a right sibling or none. -/
def worstChild (items : Array α) (left : Nat) (h : left < items.size) : Nat :=
  if hright : left + 1 < items.size then
    if cmp items[left + 1] items[left] = .gt then left + 1 else left
  else left

variable {items : Array α} {left : Nat}

theorem worstChild_lt (h : left < items.size) :
    worstChild cmp items left h < items.size := by
  unfold worstChild
  split
  · split <;> assumption
  · exact h

theorem le_worstChild (h : left < items.size) :
    left ≤ worstChild cmp items left h ∧ worstChild cmp items left h ≤ left + 1 := by
  unfold worstChild
  split
  · split <;> omega
  · omega

/-- Swaps an element with its greater child, as far as that is greater. -/
def siftDown (items : Array α) (parent : Nat) : Array α :=
  if h : parent * 2 + 1 < items.size then
    have hworst := worstChild_lt cmp h
    have hle := le_worstChild cmp h
    if cmp items[worstChild cmp items (parent * 2 + 1) h] items[parent] = .gt then
      siftDown (items.swap parent (worstChild cmp items (parent * 2 + 1) h))
        (worstChild cmp items (parent * 2 + 1) h)
    else items
  else items
termination_by items.size - parent
decreasing_by
  rw [Array.size_swap]
  omega

/-- Takes an element in, if there is room or it is less than the greatest. -/
def push (k : Nat) (items : Array α) (item : α) : Array α :=
  if k = 0 then items
  else if items.size < k then siftUp cmp (items.push item) items.size
  else
    match items[0]? with
    | none => items
    | some root => if cmp item root = .lt then siftDown cmp (items.set! 0 item) 0 else items

variable {cmp}

variable (cmp) in
theorem siftUp_perm (items : Array α) (child : ℕ) : (siftUp cmp items child).Perm items := by
  fun_induction siftUp cmp items child with
  | case1 items child h _ ih => exact ih.trans (Array.swap_perm _ _)
  | case2 => exact .rfl
  | case3 => exact .rfl

variable (cmp) in
theorem siftDown_perm (items : Array α) (parent : ℕ) : (siftDown cmp items parent).Perm items := by
  fun_induction siftDown cmp items parent with
  | case1 items parent h _ _ _ ih => exact ih.trans (Array.swap_perm _ _)
  | case2 => exact .rfl
  | case3 => exact .rfl

variable (cmp) in
/-- No element is greater than its parent, but perhaps the one at `hole`. -/
def OrderedAbove (items : Array α) (hole : ℕ) : Prop :=
  ∀ i, (hi : i < items.size) → 0 < i → i ≠ hole → cmp items[i] items[(i - 1) / 2] ≠ .gt

variable (cmp) in
/-- No element is greater than its parent, but perhaps the children of `hole`. -/
def OrderedBelow (items : Array α) (hole : ℕ) : Prop :=
  ∀ i, (hi : i < items.size) → 0 < i → (i - 1) / 2 ≠ hole → cmp items[i] items[(i - 1) / 2] ≠ .gt

variable (cmp) in
/-- No child of `hole` is greater than the parent of `hole`. -/
def Bridged (items : Array α) (hole : ℕ) : Prop :=
  ∀ i, (hi : i < items.size) → 0 < i → (i - 1) / 2 = hole → 0 < hole →
    cmp items[i] items[((i - 1) / 2 - 1) / 2] ≠ .gt

variable (cmp) in
/-- No element is greater than its parent. -/
def Ordered (items : Array α) : Prop :=
  ∀ i, (hi : i < items.size) → 0 < i → cmp items[i] items[(i - 1) / 2] ≠ .gt

section

variable {S : α → Prop} (hcmp : TotalOn S cmp)

include hcmp

theorem siftUp_ordered (items : Array α) (child : ℕ) (hS : ∀ x ∈ items, S x)
    (habove : OrderedAbove cmp items child) (hbridged : Bridged cmp items child) :
    Ordered cmp (siftUp cmp items child) := by
  fun_induction siftUp cmp items child with
  | case1 items child h hgt ih =>
    have hSi : ∀ i, (hi : i < items.size) → S items[i] := fun i hi => hS _ (Array.getElem_mem hi)
    have hlt : cmp items[(child - 1) / 2] items[child] = .lt :=
      (hcmp.gt_iff (hSi _ _) (hSi _ _)).mp hgt
    have hparent : (child - 1) / 2 ≠ child := by omega
    refine ih (fun x hx => hS x ((Array.swap_perm _ _).mem_iff.mp hx)) (fun i hi hpos hne => ?_)
      fun i hi hpos heq hgrand => ?_
    · rw [Array.size_swap] at hi
      rw [Array.getElem_swap, Array.getElem_swap, if_neg hne]
      by_cases hchild : i = child
      · -- the element that comes down stands under the one that went up
        subst hchild
        rw [if_pos rfl, if_neg hparent, if_pos rfl, hlt]
        decide
      · rw [if_neg hchild]
        have hi' := habove i hi hpos hchild
        by_cases hunder : (i - 1) / 2 = child
        · rw [if_pos hunder]
          simpa only [hunder] using hbridged i hi hpos hunder h.1
        · rw [if_neg hunder]
          by_cases hsibling : (i - 1) / 2 = (child - 1) / 2
          · rw [if_pos hsibling]
            simp only [hsibling] at hi'
            exact hcmp.trans (hSi _ _) (hSi _ _) (hSi _ _) hi' (by rw [hlt]; decide)
          · rw [if_neg hsibling]
            exact hi'
    · rw [Array.size_swap] at hi
      have hup := habove ((child - 1) / 2) (by omega) hgrand hparent
      have hgrand' : ((child - 1) / 2 - 1) / 2 ≠ child := by omega
      have hgrand'' : ((child - 1) / 2 - 1) / 2 ≠ (child - 1) / 2 := by omega
      simp only [Array.getElem_swap, heq, if_neg hgrand', if_neg hgrand'']
      by_cases hchild : i = child
      · subst hchild
        rw [if_pos rfl]
        exact hup
      · have hi' := habove i hi hpos hchild
        have hself : i ≠ (child - 1) / 2 := by omega
        rw [if_neg hchild, if_neg hself]
        simp only [heq] at hi'
        exact hcmp.trans (hSi _ _) (hSi _ _) (hSi _ _) hi' hup
  | case2 items child h hle =>
    intro i hi hpos
    by_cases hchild : i = child
    · subst hchild
      exact hle
    · exact habove i hi hpos hchild
  | case3 items child h =>
    intro i hi hpos
    exact habove i hi hpos (by omega)

/-- No child is greater than the one that is taken for the greater. -/
theorem le_worst {items : Array α} {left : ℕ} (hS : ∀ x ∈ items, S x) (h : left < items.size)
    (hworst : worstChild cmp items left h < items.size) {i : ℕ} (hi : i < items.size)
    (hleft : left ≤ i) (hright : i ≤ left + 1) :
    cmp items[i] items[worstChild cmp items left h] ≠ .gt := by
  have hSi : ∀ i, (hi : i < items.size) → S items[i] := fun i hi => hS _ (Array.getElem_mem hi)
  have hrefl : ∀ i, (hi : i < items.size) → cmp items[i] items[i] ≠ .gt := by
    intro i hi
    rw [hcmp.refl (hSi i hi)]
    decide
  by_cases hsecond : left + 1 < items.size
  · by_cases hgt : cmp items[left + 1] items[left] = .gt
    · have heq : worstChild cmp items left h = left + 1 := by
        rw [worstChild, dif_pos hsecond, if_pos hgt]
      simp only [heq]
      by_cases hi' : i = left
      · subst hi'
        rw [(hcmp.gt_iff (hSi _ _) (hSi _ _)).mp hgt]
        decide
      · obtain rfl : i = left + 1 := by omega
        exact hrefl _ _
    · have heq : worstChild cmp items left h = left := by
        rw [worstChild, dif_pos hsecond, if_neg hgt]
      simp only [heq]
      by_cases hi' : i = left
      · subst hi'
        exact hrefl _ _
      · obtain rfl : i = left + 1 := by omega
        exact hgt
  · have heq : worstChild cmp items left h = left := by rw [worstChild, dif_neg hsecond]
    simp only [heq]
    obtain rfl : i = left := by omega
    exact hrefl _ _

theorem siftDown_ordered (items : Array α) (parent : ℕ) (hS : ∀ x ∈ items, S x)
    (hbelow : OrderedBelow cmp items parent) (hbridged : Bridged cmp items parent) :
    Ordered cmp (siftDown cmp items parent) := by
  fun_induction siftDown cmp items parent with
  | case1 items parent h hworst hle hgt ih =>
    have hgreatest := fun {i : ℕ} => @le_worst _ _ _ hcmp items _ hS h hworst i
    generalize worstChild cmp items (parent * 2 + 1) h = worst at hworst hle hgt ih hgreatest
    have hSi : ∀ i, (hi : i < items.size) → S items[i] := fun i hi => hS _ (Array.getElem_mem hi)
    have hlt : cmp items[parent] items[worst] = .lt := (hcmp.gt_iff (hSi _ _) (hSi _ _)).mp hgt
    have hparent : worst ≠ parent := by omega
    have hof : (worst - 1) / 2 = parent := by omega
    refine ih (fun x hx => hS x ((Array.swap_perm _ _).mem_iff.mp hx)) (fun i hi hpos hne => ?_)
      fun i hi hpos heq _ => ?_
    · rw [Array.size_swap] at hi
      rw [Array.getElem_swap, Array.getElem_swap, if_neg hne]
      by_cases hunder : (i - 1) / 2 = parent
      · rw [if_pos hunder]
        have hself : i ≠ parent := by omega
        rw [if_neg hself]
        by_cases hchild : i = worst
        · rw [if_pos hchild, hlt]
          decide
        · rw [if_neg hchild]
          exact hgreatest hi (by omega) (by omega)
      · rw [if_neg hunder]
        have hchild : i ≠ worst := by
          rintro rfl
          exact hunder hof
        rw [if_neg hchild]
        by_cases hself : i = parent
        · -- the greater child comes to stand under the parent's parent
          subst hself
          rw [if_pos rfl]
          have hup := hbridged worst hworst (by omega) hof hpos
          simpa only [hof] using hup
        · rw [if_neg hself]
          exact hbelow i hi hpos hunder
    · rw [Array.size_swap] at hi
      have hi' := hbelow i hi hpos (by omega)
      have hgrand : ((i - 1) / 2 - 1) / 2 = parent := by omega
      have hself : i ≠ parent := by omega
      have hchild : i ≠ worst := by omega
      rw [Array.getElem_swap, Array.getElem_swap, if_neg hself, if_neg hchild, if_pos hgrand]
      simpa only [heq] using hi'
  | case2 items parent h hworst hle hnot =>
    intro i hi hpos
    by_cases hunder : (i - 1) / 2 = parent
    · have hSi : ∀ i, (hi : i < items.size) → S items[i] := fun i hi => hS _ (Array.getElem_mem hi)
      have hgreatest := le_worst hcmp hS h hworst hi (by omega) (by omega)
      simp only [hunder]
      exact hcmp.trans (hSi _ _) (hSi _ _) (hSi _ _) hgreatest hnot
    · exact hbelow i hi hpos hunder
  | case3 items parent h =>
    intro i hi hpos
    exact hbelow i hi hpos (by omega)

/-- The root is the greatest. -/
theorem le_root {items : Array α} (hS : ∀ x ∈ items, S x) (hordered : Ordered cmp items)
    (hroot : 0 < items.size) : ∀ i, (hi : i < items.size) → cmp items[i] items[0] ≠ .gt := by
  have hSi : ∀ i, (hi : i < items.size) → S items[i] := fun i hi => hS _ (Array.getElem_mem hi)
  intro i
  induction i using Nat.strong_induction_on with
  | h i ih =>
    intro hi
    by_cases hpos : 0 < i
    · exact hcmp.trans (hSi _ _) (hSi _ _) (hSi _ _) (hordered i hi hpos) (ih _ (by omega) (by omega))
    · obtain rfl : i = 0 := by omega
      rw [hcmp.refl (hSi _ _)]
      decide

end

variable (cmp) in
/-- `items` holds the least `k` of a list, in a heap; `rest` holds the others. -/
structure Selects (k : ℕ) (items : Array α) (rest l : List α) : Prop where
  ordered : Ordered cmp items
  perm : (items.toList ++ rest).Perm l
  size : items.size ≤ k
  full : rest ≠ [] → items.size = k
  least : ∀ x ∈ items, ∀ y ∈ rest, cmp x y ≠ .gt

theorem selects_nil (k : ℕ) : Selects cmp k #[] [] [] where
  ordered i hi := absurd hi (Nat.not_lt_zero i)
  perm := .rfl
  size := Nat.zero_le k
  full h := absurd rfl h
  least _ _ _ hy := by cases hy

variable {k : ℕ} {rest l : List α}

/-- Each element that is pushed is selected or left out. -/
theorem Selects.push {S : α → Prop} (hcmp : TotalOn S cmp)
    (h : Selects cmp k items rest l) (hS : ∀ x ∈ l, S x) {item : α} (hitem : S item) :
    ∃ rest', Selects cmp k (push cmp k items item) rest' (l ++ [item]) := by
  have hSitems : ∀ x ∈ items, S x := by
    intro x hx
    exact hS x (h.perm.mem_iff.mp (List.mem_append_left _ (Array.mem_toList_iff.mpr hx)))
  have hSrest : ∀ x ∈ rest, S x := fun x hx => hS x (h.perm.mem_iff.mp (List.mem_append_right _ hx))
  have hleft : (items.toList ++ item :: rest).Perm (l ++ [item]) :=
    (List.perm_middle.trans (h.perm.cons item)).trans (List.perm_append_singleton item l).symm
  unfold Heap.push
  by_cases hk : k = 0
  · have hempty : items.size = 0 := Nat.le_zero.mp (hk ▸ h.size)
    rw [if_pos hk]
    refine ⟨item :: rest, h.ordered, hleft, h.size, fun _ => hempty.trans hk.symm, fun x hx => ?_⟩
    rw [Array.size_eq_zero_iff.mp hempty] at hx
    exact absurd hx (Array.not_mem_empty x)
  · rw [if_neg hk]
    by_cases hroom : items.size < k
    · rw [if_pos hroom]
      have hrest : rest = [] := by
        by_contra hne
        exact absurd (h.full hne) hroom.ne
      subst hrest
      have hperm := siftUp_perm cmp (items.push item) items.size
      refine ⟨[], ?_, ?_, ?_, fun hne => absurd rfl hne, fun _ _ _ hy => by cases hy⟩
      · refine siftUp_ordered hcmp _ _ (fun x hx => ?_) (fun i hi hpos hne => ?_) fun i hi _ hof _ => ?_
        · cases Array.mem_push.mp hx with
          | inl hx => exact hSitems x hx
          | inr hx => exact hx ▸ hitem
        · rw [Array.size_push] at hi
          rw [Array.getElem_push_lt (by omega), Array.getElem_push_lt (by omega)]
          exact h.ordered i (by omega) hpos
        · rw [Array.size_push] at hi
          omega
      · have hl := h.perm
        rw [List.append_nil] at hl ⊢
        refine (Array.perm_iff_toList_perm.mp hperm).trans ?_
        rw [Array.toList_push]
        exact hl.append_right _
      · rw [hperm.size_eq, Array.size_push]
        omega
    · rw [if_neg hroom]
      have hsize : items.size = k := le_antisymm h.size (not_lt.mp hroom)
      have hpos : 0 < items.size := by omega
      have hroot : items[0]? = some items[0] := Array.getElem?_eq_getElem hpos
      have hSroot : S items[0] := hSitems _ (Array.getElem_mem hpos)
      have hgreatest := le_root hcmp hSitems h.ordered hpos
      rw [hroot]
      simp only
      by_cases hless : cmp item items[0] = .lt
      · rw [if_pos hless]
        have hset : (items.set! 0 item).toList = item :: items.toList.tail := by
          rw [Array.set!_eq_setIfInBounds, Array.toList_setIfInBounds]
          cases hitems : items.toList with
          | nil =>
            rw [← Array.length_toList, hitems] at hpos
            exact absurd hpos (lt_irrefl 0)
          | cons root tail => rfl
        have htail : items.toList = items[0] :: items.toList.tail := by
          cases hitems : items.toList with
          | nil =>
            rw [← Array.length_toList, hitems] at hpos
            exact absurd hpos (lt_irrefl 0)
          | cons root tail =>
            have hfirst : items.toList[0]? = some root := by rw [hitems]; rfl
            rw [Array.getElem?_toList, hroot, Option.some.injEq] at hfirst
            rw [hfirst, List.tail_cons]
        have hmem : ∀ x ∈ items.set! 0 item, x = item ∨ x ∈ items := by
          intro x hx
          rw [← Array.mem_toList_iff, hset] at hx
          cases hx with
          | head => exact .inl rfl
          | tail _ hx => exact .inr (Array.mem_toList_iff.mp (List.mem_of_mem_tail hx))
        have hperm := siftDown_perm cmp (items.set! 0 item) 0
        refine ⟨items[0] :: rest, ?_, ?_, ?_, fun _ => ?_, fun x hx y hy => ?_⟩
        · refine siftDown_ordered hcmp _ _ (fun x hx => ?_) (fun i hi hone hne => ?_) fun i _ _ _ hzero =>
            absurd hzero (lt_irrefl 0)
          · cases hmem x hx with
            | inl hx => exact hx ▸ hitem
            | inr hx => exact hSitems x hx
          · simp only [Array.set!_eq_setIfInBounds, Array.size_setIfInBounds] at hi
            have hup : (i - 1) / 2 < items.size := by omega
            simp only [Array.set!_eq_setIfInBounds]
            rw [Array.getElem_setIfInBounds hi, Array.getElem_setIfInBounds hup, if_neg hone.ne,
              if_neg (Ne.symm hne)]
            exact h.ordered i hi hone
        · refine ((Array.perm_iff_toList_perm.mp hperm).append_right _).trans ?_
          rw [hset, List.cons_append]
          have hback : (items.toList.tail ++ items[0] :: rest).Perm l := by
            refine (List.perm_middle.trans ?_).trans h.perm
            rw [← List.cons_append, ← htail]
          exact (hback.cons item).trans (List.perm_append_singleton item l).symm
        · rw [hperm.size_eq, Array.set!_eq_setIfInBounds, Array.size_setIfInBounds]
          exact h.size
        · rw [hperm.size_eq, Array.set!_eq_setIfInBounds, Array.size_setIfInBounds]
          exact hsize
        · have hbelow : cmp item items[0] ≠ .gt := by
            rw [hless]
            decide
          cases hmem x (hperm.mem_iff.mp hx) with
          | inl hx =>
            subst hx
            cases hy with
            | head => exact hbelow
            | tail _ hy =>
              exact hcmp.trans hitem hSroot (hSrest y hy) hbelow (h.least _ (Array.getElem_mem hpos) y hy)
          | inr hx =>
            cases hy with
            | head =>
              obtain ⟨i, hi, rfl⟩ := Array.getElem_of_mem hx
              exact hgreatest i hi
            | tail _ hy => exact h.least x hx y hy
      · rw [if_neg hless]
        refine ⟨item :: rest, h.ordered, hleft, h.size, fun _ => hsize, fun x hx y hy => ?_⟩
        cases hy with
        | head =>
          obtain ⟨i, hi, rfl⟩ := Array.getElem_of_mem hx
          exact hcmp.trans (hSitems _ hx) hSroot hitem (hgreatest i hi) fun hgt =>
            hless ((hcmp.gt_iff hSroot hitem).mp hgt)
        | tail _ hy => exact h.least x hx y hy

variable (cmp) in
/-- All of a list, pushed in turn. -/
def pushAll (k : Nat) (items : Array α) (l : List α) : Array α := l.foldl (push cmp k) items

theorem Selects.pushAll {S : α → Prop} (hcmp : TotalOn S cmp)
    (h : Selects cmp k items rest l) {more : List α} (hS : ∀ x ∈ l ++ more, S x) :
    ∃ rest', Selects cmp k (pushAll cmp k items more) rest' (l ++ more) := by
  induction more generalizing items rest l with
  | nil =>
    rw [List.append_nil]
    exact ⟨rest, h⟩
  | cons item more ih =>
    obtain ⟨rest', h'⟩ := h.push hcmp (fun x hx => hS x (List.mem_append_left _ hx))
      (hS item (List.mem_append_right _ List.mem_cons_self))
    rw [List.append_cons] at hS ⊢
    exact ih h' hS

/-- What is selected from elements no two of which are equal, sorted, is what their sort begins with. -/
theorem Selects.sorted {S : α → Prop} (hcmp : TotalOn S cmp)
    (h : Selects cmp k items rest l) (hS : ∀ x ∈ l, S x)
    (hdistinct : ∀ x ∈ l, ∀ y ∈ l, cmp x y = .eq → x = y) :
    stableSort cmp items.toList = (stableSort cmp l).take k := by
  have hSitems : ∀ x ∈ items.toList, S x := fun x hx => hS x (h.perm.mem_iff.mp (List.mem_append_left _ hx))
  have hSrest : ∀ x ∈ rest, S x := fun x hx => hS x (h.perm.mem_iff.mp (List.mem_append_right _ hx))
  have hsplit : stableSort cmp items.toList ++ stableSort cmp rest = stableSort cmp l := by
    have hperm : (stableSort cmp items.toList ++ stableSort cmp rest).Perm (stableSort cmp l) :=
      (((perm_stableSort _).append (perm_stableSort _)).trans h.perm).trans (perm_stableSort l).symm
    refine List.Perm.eq_of_pairwise (fun a b ha hb hab hba => ?_) ?_ (pairwise_stableSort hcmp hS) hperm
    · have ha := (perm_stableSort l).mem_iff.mp (hperm.mem_iff.mp ha)
      have hb := (perm_stableSort l).mem_iff.mp hb
      refine hdistinct a ha b hb ?_
      cases hcase : cmp a b with
      | lt => exact absurd ((hcmp.gt_iff (hS b hb) (hS a ha)).mpr hcase) hba
      | eq => rfl
      | gt => exact absurd hcase hab
    · refine List.pairwise_append.mpr ⟨pairwise_stableSort hcmp hSitems, pairwise_stableSort hcmp hSrest,
        fun x hx y hy => ?_⟩
      exact h.least x (Array.mem_toList_iff.mp ((perm_stableSort _).mem_iff.mp hx)) y
        ((perm_stableSort _).mem_iff.mp hy)
  have hlength : (stableSort cmp items.toList).length = items.size :=
    (perm_stableSort _).length_eq.trans Array.length_toList
  rw [← hsplit]
  by_cases hrest : rest = []
  · have hnil : stableSort cmp rest = [] := List.perm_nil.mp (hrest ▸ perm_stableSort rest)
    rw [hnil, List.append_nil, List.take_of_length_le (hlength.trans_le h.size)]
  · rw [List.take_left' (hlength.trans (h.full hrest))]

end Jed.Heap
