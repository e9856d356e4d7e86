import Mathlib.Data.Finset.Sort
import Mathlib.Tactic.Linarith

/-!
# Sorted association lists as finite maps

A finite map over a linearly ordered key type, kept as the list of its bindings in strictly
ascending key order. Every operation passes over a prefix of smaller keys and a suffix of larger
keys, so a map that is cut into pieces (the leaves of a search tree) is updated in one piece.
-/

namespace SortedMap

variable {κ β : Type} [LinearOrder κ]

/-- Strictly ascending in the key. -/
def Sorted (m : List (κ × β)) : Prop := m.Pairwise (fun a b => a.1 < b.1)

/-- The value bound to `k`. -/
def get (k : κ) (m : List (κ × β)) : Option β :=
  (m.find? (fun e => e.1 = k)).map Prod.snd

/-- Bind `k` to `v`, replacing an older binding. -/
def insert (k : κ) (v : β) : List (κ × β) → List (κ × β)
  | [] => [(k, v)]
  | e :: m =>
    if e.1 < k then e :: insert k v m
    else if k < e.1 then (k, v) :: e :: m
    else (k, v) :: m

/-- Remove the binding of `k`. -/
def erase (k : κ) (m : List (κ × β)) : List (κ × β) := m.filter (fun e => e.1 ≠ k)

@[simp] theorem get_nil (k : κ) : get k ([] : List (κ × β)) = none := rfl

theorem get_cons (k : κ) (e : κ × β) (m : List (κ × β)) :
    get k (e :: m) = if e.1 = k then some e.2 else get k m := by
  by_cases h : e.1 = k <;> simp [get, h]

variable {k : κ}

theorem get_append_left (l m : List (κ × β)) (hl : ∀ e ∈ l, e.1 ≠ k) :
    get k (l ++ m) = get k m := by
  have hnone : l.find? (fun e => e.1 = k) = none := by
    simp only [List.find?_eq_none, decide_eq_true_eq]
    exact hl
  simp [get, List.find?_append, hnone]

theorem get_append_right (m r : List (κ × β)) (hr : ∀ e ∈ r, e.1 ≠ k) :
    get k (m ++ r) = get k m := by
  have hnone : r.find? (fun e => e.1 = k) = none := by
    simp only [List.find?_eq_none, decide_eq_true_eq]
    exact hr
  simp [get, List.find?_append, hnone]

variable {m : List (κ × β)}

theorem get_eq_none (h : ∀ e ∈ m, e.1 ≠ k) : get k m = none := by
  simpa using get_append_left m [] h

variable {v : β}

theorem insert_append_left (l m : List (κ × β)) (hl : ∀ e ∈ l, e.1 < k) :
    insert k v (l ++ m) = l ++ insert k v m := by
  induction l with
  | nil => rfl
  | cons e l ih =>
    have he : e.1 < k := hl e List.mem_cons_self
    simp only [List.cons_append, insert, he, if_true]
    rw [ih (fun x hx => hl x (List.mem_cons_of_mem _ hx))]

theorem insert_append_right (m r : List (κ × β)) (hr : ∀ e ∈ r, k < e.1) :
    insert k v (m ++ r) = insert k v m ++ r := by
  induction m with
  | nil =>
    cases r with
    | nil => rfl
    | cons e r =>
      have he : k < e.1 := hr e List.mem_cons_self
      simp [insert, he, he.le]
  | cons e m ih =>
    simp only [List.cons_append, insert]
    split
    · rw [ih, List.cons_append]
    · split <;> rfl

theorem insert_absent (l r : List (κ × β)) (hl : ∀ e ∈ l, e.1 < k) (hr : ∀ e ∈ r, k < e.1) :
    insert k v (l ++ r) = l ++ (k, v) :: r := by
  have h := insert_append_right (v := v) [] r hr
  rw [insert_append_left l r hl]
  simpa [insert] using congrArg (l ++ ·) h

theorem insert_present {w : β} (l r : List (κ × β)) (hl : ∀ e ∈ l, e.1 < k) :
    insert k v (l ++ (k, w) :: r) = l ++ (k, v) :: r := by
  rw [insert_append_left l _ hl]
  simp [insert]

theorem erase_append (k : κ) (l r : List (κ × β)) :
    erase k (l ++ r) = erase k l ++ erase k r := List.filter_append ..

theorem erase_of_absent (h : ∀ e ∈ m, e.1 ≠ k) : erase k m = m := by
  simpa [erase, List.filter_eq_self] using h

variable {l r : List (κ × β)}

theorem Sorted.append_iff :
    Sorted (l ++ r) ↔ Sorted l ∧ Sorted r ∧ ∀ a ∈ l, ∀ b ∈ r, a.1 < b.1 :=
  List.pairwise_append

theorem Sorted.cons_iff {e : κ × β} :
    Sorted (e :: m) ↔ (∀ b ∈ m, e.1 < b.1) ∧ Sorted m :=
  List.pairwise_cons

theorem Sorted.of_sublist (h : Sorted m) (hs : l.Sublist m) : Sorted l :=
  List.Pairwise.sublist hs h

theorem Sorted.erase (h : Sorted m) (k : κ) : Sorted (erase k m) :=
  h.of_sublist List.filter_sublist

theorem mem_insert {e : κ × β} (he : e ∈ insert k v m) :
    e = (k, v) ∨ e ∈ m := by
  induction m with
  | nil => simpa [insert] using he
  | cons x m ih =>
    simp only [insert] at he
    split at he
    · rcases List.mem_cons.mp he with rfl | he
      · exact .inr List.mem_cons_self
      · exact (ih he).imp id (List.mem_cons_of_mem _)
    · split at he
      · exact (List.mem_cons.mp he).imp id id
      · exact (List.mem_cons.mp he).imp id (List.mem_cons_of_mem _)

theorem Sorted.insert (h : Sorted m) (k : κ) (v : β) :
    Sorted (insert k v m) := by
  induction m with
  | nil => simp [SortedMap.insert, Sorted]
  | cons e m ih =>
    obtain ⟨hlt, hm⟩ := Sorted.cons_iff.mp h
    simp only [SortedMap.insert]
    split
    · rename_i hek
      refine Sorted.cons_iff.mpr ⟨fun b hb => ?_, ih hm⟩
      rcases mem_insert hb with rfl | hb
      · exact hek
      · exact hlt b hb
    · split
      · rename_i hke
        refine Sorted.cons_iff.mpr ⟨fun b hb => ?_, h⟩
        rcases List.mem_cons.mp hb with rfl | hb
        · exact hke
        · exact hke.trans (hlt b hb)
      · rename_i hek hke
        have heq : e.1 = k := le_antisymm (not_lt.mp hke) (not_lt.mp hek)
        exact Sorted.cons_iff.mpr ⟨heq ▸ hlt, hm⟩

theorem get_insert (m : List (κ × β)) (k j : κ) (v : β) :
    get j (insert k v m) = if j = k then some v else get j m := by
  induction m with
  | nil => simp only [SortedMap.insert, get_cons, get_nil, eq_comm]
  | cons e m ih =>
    simp only [SortedMap.insert]
    split
    · rename_i hek
      rw [get_cons, get_cons, ih]
      by_cases hj : e.1 = j
      · simp [hj, (hj ▸ hek).ne]
      · simp [hj]
    · split
      · rw [get_cons]
        simp only [eq_comm]
      · rename_i hek hke
        have heq : e.1 = k := le_antisymm (not_lt.mp hke) (not_lt.mp hek)
        rw [get_cons, get_cons, heq]
        by_cases hj : j = k
        · simp [hj]
        · simp [hj, Ne.symm hj]

theorem get_erase (m : List (κ × β)) (k j : κ) :
    get j (erase k m) = if j = k then none else get j m := by
  by_cases hj : j = k
  · subst hj
    simp only [if_true]
    exact get_eq_none (by simp [erase])
  · simp only [hj, if_false, get, erase]
    congr 1
    rw [List.find?_filter]
    congr 1
    funext e
    by_cases he : e.1 = j <;> simp [he, hj]

theorem get_at_cut (hl : ∀ e ∈ l, e.1 < k) :
    get k (l ++ (k, v) :: r) = some v := by
  rw [get_append_left l _ (fun e he => (hl e he).ne)]
  simp [get_cons]

theorem get_between (hl : ∀ e ∈ l, e.1 < k) (hr : ∀ e ∈ r, k < e.1) :
    get k (l ++ r) = none := by
  rw [get_append_left l _ (fun e he => (hl e he).ne)]
  exact get_eq_none (fun e he => (hr e he).ne')

theorem erase_at_cut (hl : ∀ e ∈ l, e.1 < k) (hr : ∀ e ∈ r, k < e.1) :
    erase k (l ++ (k, v) :: r) = l ++ r := by
  have hleft := erase_of_absent (fun e he => (hl e he).ne)
  have hright := erase_of_absent (fun e he => (hr e he).ne')
  rw [erase_append, hleft]
  simpa [erase] using congrArg (l ++ ·) hright

theorem get_isSome_iff : (get k m).isSome ↔ k ∈ m.map Prod.fst := by
  induction m with
  | nil => simp
  | cons e m ih =>
    rw [get_cons, List.map_cons, List.mem_cons, ← ih]
    by_cases h : e.1 = k
    · simp [h]
    · simp [h, Ne.symm h]

/-! ### Values and sizes -/

/-- Rewrite every value. -/
def mapValues {γ : Type} (f : β → γ) (m : List (κ × β)) : List (κ × γ) := m.map (fun e => (e.1, f e.2))

theorem get_mapValues {γ : Type} (f : β → γ) (k : κ) (m : List (κ × β)) :
    get k (mapValues f m) = (get k m).map f := by
  induction m with
  | nil => rfl
  | cons e m ih =>
    simp only [mapValues, List.map_cons, get_cons] at ih ⊢
    split
    · rfl
    · exact ih

theorem insert_mapValues {γ : Type} (f : β → γ) (k : κ) (v : β) (m : List (κ × β)) :
    mapValues f (insert k v m) = insert k (f v) (mapValues f m) := by
  induction m with
  | nil => rfl
  | cons e m ih =>
    simp only [mapValues, insert, List.map_cons] at ih ⊢
    split
    · simp only [List.map_cons, ih]
    · split <;> rfl

theorem erase_mapValues {γ : Type} (f : β → γ) (k : κ) (m : List (κ × β)) :
    mapValues f (erase k m) = erase k (mapValues f m) := by
  simp only [mapValues, erase, List.filter_map]
  rfl

/-- An insert of an unbound key adds one binding, an overwrite none. -/
theorem length_insert (h : Sorted m) (k : κ) (v : β) :
    (insert k v m).length = if (get k m).isNone then m.length + 1 else m.length := by
  induction m with
  | nil => rfl
  | cons e m ih =>
    obtain ⟨hlt, hs⟩ := Sorted.cons_iff.mp h
    simp only [insert, get_cons]
    by_cases h1 : e.1 < k
    · simp only [if_pos h1, if_neg h1.ne, List.length_cons, ih hs]
      split <;> rfl
    · rw [if_neg h1]
      by_cases h2 : k < e.1
      · have hnone : get k m = none := get_eq_none (fun e' he' => (h2.trans (hlt e' he')).ne')
        simp [if_pos h2, if_neg h2.ne', hnone]
      · simp [le_antisymm (not_lt.mp h2) (not_lt.mp h1)]

/-- An erase of a bound key takes one binding away. -/
theorem length_erase (h : Sorted m) (k : κ) :
    (erase k m).length = if (get k m).isNone then m.length else m.length - 1 := by
  induction m with
  | nil => rfl
  | cons e m ih =>
    obtain ⟨hlt, hs⟩ := Sorted.cons_iff.mp h
    have ih := ih hs
    by_cases h1 : e.1 = k
    · have habs : erase k m = m := erase_of_absent (fun e' he' => h1 ▸ (hlt e' he').ne')
      have hhead : erase k (e :: m) = erase k m := by simp [erase, h1]
      rw [hhead, habs, get_cons, if_pos h1]
      simp
    · have hpos : (get k m).isSome → 0 < m.length := by
        intro hsome
        cases m with
        | nil => cases hsome
        | cons => simp
      simp only [erase] at ih
      simp only [erase, List.filter_cons, get_cons, h1, ne_eq, not_false_eq_true, decide_true, if_true,
        if_false, List.length_cons, ih]
      cases hg : get k m with
      | none => simp
      | some v =>
        have := hpos (by simp [hg])
        simp only [Option.isNone_some, Bool.false_eq_true, if_false]
        omega

end SortedMap
