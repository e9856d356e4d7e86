import Jed.Cte.Derivation
import Jed.Lib.PrefixOrder

/-!
# Orders and cycles along the derivations

Rows sorted by the depth-first column stand in a preorder of their forest, and a recursion whose cycle
columns take finitely many values ends, for no path that is extended has two records that are not distinct.
-/

namespace Jed.Cte

open Key Compare KeyCodes PrefixOrder
open Access (CmpOp arrayOf)

section Levels

variable {types : List ColType} {terms : Terms types} {listed : Listed} {unionAll : Bool}

theorem last_subset (k : ℕ) :
    ∀ d ∈ (forest terms listed unionAll k).2, d ∈ (forest terms listed unionAll k).1 := by
  intro d hd
  cases k with
  | zero => exact hd
  | succ k => exact List.mem_append_right _ hd

variable {d : Derivation} {k : ℕ}

theorem mem_last_succ (h : d ∈ (forest terms listed unionAll (k + 1)).2) :
    ∃ parent ∈ (forest terms listed unionAll k).2, listed.expands parent = true ∧
      ∃ place user, d = .child parent place user := by
  obtain ⟨parent, hparent, hexp, place, user, -, rfl⟩ := mem_offspring (mem_of_mem_keepRows h)
  exact ⟨parent, hparent, hexp, place, user, rfl⟩

theorem mem_last_zero (h : d ∈ (forest terms listed unionAll 0).2) :
    ∃ place user, d = .anchor place user := by
  obtain ⟨a, -, rfl⟩ := List.mem_map.mp (mem_of_mem_keepRows h)
  exact ⟨a.2, a.1, rfl⟩

theorem depth_last (h : d ∈ (forest terms listed unionAll k).2) :
    d.depth = k := by
  induction k generalizing d with
  | zero =>
    obtain ⟨place, user, rfl⟩ := mem_last_zero h
    rfl
  | succ k ih =>
    obtain ⟨parent, hparent, -, place, user, rfl⟩ := mem_last_succ h
    rw [Derivation.depth, ih hparent]

theorem mem_forest_iff {n : ℕ} :
    d ∈ (forest terms listed unionAll n).1 ↔ ∃ k ≤ n, d ∈ (forest terms listed unionAll k).2 := by
  induction n with
  | zero =>
    constructor
    · exact fun h => ⟨0, Nat.le_refl 0, h⟩
    · rintro ⟨k, hk, h⟩
      rw [Nat.le_zero.mp hk] at h
      exact h
  | succ n ih =>
    constructor
    · intro h
      rcases List.mem_append.mp h with h | h
      · obtain ⟨k, hk, h⟩ := ih.mp h
        exact ⟨k, Nat.le_succ_of_le hk, h⟩
      · exact ⟨n + 1, Nat.le_refl _, h⟩
    · rintro ⟨k, hk, h⟩
      rcases Nat.le_or_eq_of_le_succ hk with hk | rfl
      · exact List.mem_append_left _ (ih.mpr ⟨k, hk, h⟩)
      · exact last_subset _ d h

/-- The rows that a row of the forest derives from are in it. -/
theorem ancestors_mem {n : ℕ} {a : Derivation} (h : d ∈ (forest terms listed unionAll n).1)
    (ha : a ∈ d.ancestors) : a ∈ (forest terms listed unionAll n).1 := by
  induction d with
  | anchor => cases ha
  | child parent place user ih =>
    obtain ⟨k, hk, hlast⟩ := mem_forest_iff.mp h
    have hparent : parent ∈ (forest terms listed unionAll n).1 := by
      cases k with
      | zero =>
        obtain ⟨_, _, heq⟩ := mem_last_zero hlast
        cases heq
      | succ k =>
        obtain ⟨p, hp, -, _, _, heq⟩ := mem_last_succ hlast
        cases heq
        exact mem_forest_iff.mpr ⟨k, Nat.le_of_succ_le hk, hp⟩
    rcases List.mem_cons.mp ha with rfl | ha
    · exact hparent
    · exact ih hparent ha

end Levels

theorem Derivation.length_path (cols : List Nat) (d : Derivation) :
    (d.path cols).length = d.depth + 1 := by
  induction d with
  | anchor => rfl
  | child parent place user ih => rw [path, List.length_append, ih]; rfl

/-- The path of a row extends those of the rows it derives from. -/
theorem Derivation.path_of_ancestor {cols : List Nat} {a d : Derivation} (h : a ∈ d.ancestors) :
    ∃ q, q ≠ [] ∧ d.path cols = a.path cols ++ q := by
  induction d with
  | anchor => cases h
  | child parent place user ih =>
    rcases List.mem_cons.mp h with rfl | h
    · exact ⟨[tuple cols user], List.cons_ne_nil _ _, rfl⟩
    · obtain ⟨q, -, hq⟩ := ih h
      refine ⟨q ++ [tuple cols user], List.append_ne_nil_of_right_ne_nil q (List.cons_ne_nil _ _), ?_⟩
      rw [path, hq, List.append_assoc]

/-- Of a derivation, the row after so many of its steps: itself or one it derives from. -/
theorem Derivation.exists_at_depth {d : Derivation} {n : ℕ} (h : n ≤ d.depth) :
    ∃ a, (a = d ∨ a ∈ d.ancestors) ∧ a.depth = n := by
  induction d with
  | anchor place user => exact ⟨_, .inl rfl, (Nat.le_zero.mp h).symm⟩
  | child parent place user ih =>
    rcases Nat.le_or_eq_of_le_succ h with h | rfl
    · obtain ⟨a, ha, hdepth⟩ := ih h
      refine ⟨a, .inr ?_, hdepth⟩
      rcases ha with rfl | ha
      · exact List.mem_cons_self
      · exact List.mem_cons_of_mem _ ha
    · exact ⟨_, .inl rfl, rfl⟩

/-- Path columns compare as the lists of their records. -/
theorem valueCmp_paths {p q : List Value} (hp : p ≠ []) (hq : q ≠ []) :
    valueCmp (arrayOf p) (arrayOf q) = listCompare slotCmp p q := by
  rw [arrayOf_of_ne_nil hp, arrayOf_of_ne_nil hq, valueCmp_array]
  cases h : listCompare slotCmp p q with
  | lt => rfl
  | gt => rfl
  | eq =>
    rw [length_of_listCompare_eq h]
    have hdim : listCompare dimCmp ([q.length].zip [1]) ([q.length].zip [1]) = .eq :=
      (totalOn_dimCmp.list).refl fun _ _ => trivial
    rw [hdim]
    rfl

/-- Two paths with the same records, as far as they are distinct. -/
def SamePath (cols : List Nat) (a b : Derivation) : Prop :=
  listCompare slotCmp (a.path cols) (b.path cols) = .eq

/-- Rows in a preorder of their derivations: a row behind those it derives from, the rows whose paths begin
    alike together, and, where no two rows have one path, the rows derived from one together behind it. -/
structure Preorder (types : List ColType) (cols : List Nat) (sorted : List Derivation) : Prop where
  behind : ∀ i j : Fin sorted.length, sorted.get i ∈ (sorted.get j).ancestors → i < j
  together : ∀ start : List Value, (∀ t ∈ start, OfType (recordType types cols) t) →
    ∀ i j k : Fin sorted.length, i < j → j < k → Begins slotCmp start ((sorted.get i).path cols) →
      Begins slotCmp start ((sorted.get k).path cols) → Begins slotCmp start ((sorted.get j).path cols)
  derived : (sorted.Pairwise fun a b => ¬SamePath cols a b) →
    ∀ i j k : Fin sorted.length, i < j → j < k → sorted.get i ∈ (sorted.get k).ancestors →
      sorted.get i ∈ (sorted.get j).ancestors

section Preorder

variable {types : List ColType} {terms : Terms types} {listed : Listed} {unionAll : Bool}
  {cols : List Nat}

theorem totalOn_records (types : List ColType) (cols : List Nat) :
    TotalOn (fun v => OfType (recordType types cols) v) slotCmp :=
  (coheres_type (recordType types cols)).total_slot.mono fun _ h => .inr h

/-- Rows sorted by the depth-first column stand in a preorder of the forest. -/
theorem preorder_of_sorted (hc : Comparable types cols) {n : ℕ} {sorted : List Derivation}
    (hperm : sorted.Perm (forest terms listed unionAll n).1)
    (hsorted : sorted.Pairwise fun a b =>
      valueCmp (searchValue false cols a) (searchValue false cols b) ≠ .gt) :
    Preorder types cols sorted := by
  have htotal := totalOn_records types cols
  have hmem : ∀ i : Fin sorted.length, sorted.get i ∈ (forest terms listed unionAll n).1 :=
    fun i => hperm.mem_iff.mp (List.get_mem sorted i)
  have hof : ∀ i : Fin sorted.length, ∀ t ∈ (sorted.get i).path cols,
      OfType (recordType types cols) t := fun i => ((typed_forest n).1 _ (hmem i)).path hc
  have hle : ∀ i j : Fin sorted.length, i < j →
      listCompare slotCmp ((sorted.get i).path cols) ((sorted.get j).path cols) ≠ .gt := by
    intro i j hij
    have := List.pairwise_iff_get.mp hsorted i j hij
    rwa [searchValue, searchValue, if_neg Bool.false_ne_true, if_neg Bool.false_ne_true,
      valueCmp_paths (Derivation.path_ne_nil _ _) (Derivation.path_ne_nil _ _)] at this
  have htogether : ∀ start : List Value, (∀ t ∈ start, OfType (recordType types cols) t) →
      ∀ i j k : Fin sorted.length, i < j → j < k →
        Begins slotCmp start ((sorted.get i).path cols) →
          Begins slotCmp start ((sorted.get k).path cols) →
            Begins slotCmp start ((sorted.get j).path cols) :=
    fun start hstart i j k hij hjk hi hk => begins_between htotal hstart (hof i) (hof j) (hof k) hi hk
      (hle i j hij) (hle j k hjk)
  constructor
  · intro i j hanc
    obtain ⟨q, hq, hpath⟩ := Derivation.path_of_ancestor hanc
    have hlt := listCompare_append htotal (hof i) hq
    rw [← hpath] at hlt
    rcases Nat.lt_trichotomy i j with h | h | h
    · exact h
    · rw [Fin.ext h, htotal.list.refl (hof j)] at hlt
      cases hlt
    · exact absurd (htotal.list.swap (hof i) (hof j) ▸ hlt ▸ rfl) (hle j i h)
  · exact htogether
  · intro hdistinct i j k hij hjk hanc
    obtain ⟨q, -, hpath⟩ := Derivation.path_of_ancestor hanc
    have hself : Begins slotCmp ((sorted.get i).path cols) ((sorted.get i).path cols) := by
      have := begins_append htotal (hof i) []
      rwa [List.append_nil] at this
    have hk : Begins slotCmp ((sorted.get i).path cols) ((sorted.get k).path cols) := by
      rw [hpath]
      exact begins_append htotal (hof i) q
    have hj := htogether _ (hof i) i j k hij hjk hself hk
    -- the row on the way to `sorted[j]` that has the path of `sorted[i]` is `sorted[i]`
    have hdepth : (sorted.get i).depth ≤ (sorted.get j).depth := by
      have := length_of_listCompare_eq hj
      rw [List.length_take, Derivation.length_path, Derivation.length_path] at this
      omega
    obtain ⟨a, ha, hadepth⟩ := Derivation.exists_at_depth hdepth
    have hamem : a ∈ sorted := by
      rcases ha with rfl | ha
      · exact List.get_mem sorted j
      · exact hperm.mem_iff.mpr (ancestors_mem (hmem j) ha)
    have hsame : SamePath cols (sorted.get i) a := by
      have htake : ((sorted.get j).path cols).take ((sorted.get i).path cols).length = a.path cols := by
        have hlen : ((sorted.get i).path cols).length = (a.path cols).length := by
          rw [Derivation.length_path, Derivation.length_path, hadepth]
        rw [hlen]
        rcases ha with rfl | ha
        · exact List.take_length
        · obtain ⟨r, -, hr⟩ := Derivation.path_of_ancestor ha
          rw [hr, List.take_left]
      rw [SamePath, ← htake]
      exact hj
    obtain ⟨m, hm⟩ := List.mem_iff_get.mp hamem
    have hmi : m = i := by
      rcases Nat.lt_trichotomy m i with h | h | h
      · refine absurd ?_ (List.pairwise_iff_get.mp hdistinct m i h)
        rw [hm, SamePath]
        refine htotal.list.eq_symm (hof i) ?_ hsame
        rw [← hm]
        exact hof m
      · exact Fin.ext h
      · refine absurd ?_ (List.pairwise_iff_get.mp hdistinct i m h)
        rw [hm]
        exact hsame
    rw [hmi] at hm
    rw [hm]
    rcases ha with rfl | ha
    · refine absurd ?_ (List.pairwise_iff_get.mp hdistinct i j hij)
      exact hsame
    · exact ha

end Preorder

section Cycles

variable {types : List ColType} {terms : Terms types} {plan : SearchCyclePlan} {listed : Listed}
  {unionAll : Bool} {cols : List Nat} {mark : CycleMark}

/-- No row on the derivation closes a cycle. -/
def Derivation.Fresh (cols : List Nat) : Derivation → Prop
  | anchor _ _ => True
  | child parent place user => parent.Fresh cols ∧ (child parent place user).closes cols = false

variable {d : Derivation}

/-- The records of a path on which no row closes a cycle are distinct. -/
theorem Derivation.Fresh.pairwise (h : d.Fresh cols) :
    (d.path cols).Pairwise fun s t => t.notDistinctFrom s = false := by
  induction d with
  | anchor => exact List.pairwise_singleton _ _
  | child parent place user ih =>
    rw [path, List.pairwise_append]
    refine ⟨ih h.1, List.pairwise_singleton _ _, ?_⟩
    intro s hs t ht
    rw [List.mem_singleton.mp ht]
    have := h.2
    rw [closes, List.any_eq_false] at this
    exact Bool.eq_false_iff.mpr (this s hs)

theorem expands_cycle (hcycle : listed.cycle = some (cols, mark)) (d : Derivation) :
    listed.expands d = (mark.distinguishes && !d.closes cols) := by
  rw [Listed.expands, hcycle]

variable {k : ℕ}

/-- A row that is expanded closes no cycle, nor does one it derives from. -/
theorem fresh_of_expands (hcycle : listed.cycle = some (cols, mark))
    (h : d ∈ (forest terms listed unionAll k).2) (hexp : listed.expands d = true) : d.Fresh cols := by
  have hcloses : ∀ d, listed.expands d = true → d.closes cols = false := by
    intro d hd
    rw [expands_cycle hcycle, Bool.and_eq_true, Bool.not_eq_true'] at hd
    exact hd.2
  induction k generalizing d with
  | zero =>
    obtain ⟨place, user, rfl⟩ := mem_last_zero h
    trivial
  | succ k ih =>
    obtain ⟨parent, hparent, hpexp, place, user, rfl⟩ := mem_last_succ h
    exact ⟨ih hparent hpexp, hcloses _ hexp⟩

/-- The records of a path are among the values that the cycle columns take. -/
theorem path_covered {values : List Value} (hvalues : ∀ k, ∀ d ∈ (forest terms listed unionAll k).1,
      ∃ t ∈ values, (tuple cols d.user).notDistinctFrom t = true)
    (h : d ∈ (forest terms listed unionAll k).2) :
    ∀ s ∈ d.path cols, ∃ t ∈ values, s.notDistinctFrom t = true := by
  induction k generalizing d with
  | zero =>
    obtain ⟨place, user, rfl⟩ := mem_last_zero h
    intro s hs
    rw [List.mem_singleton.mp hs]
    exact hvalues 0 _ h
  | succ k ih =>
    have hown := hvalues (k + 1) d (last_subset _ d h)
    obtain ⟨parent, hparent, -, place, user, rfl⟩ := mem_last_succ h
    intro s hs
    rcases List.mem_append.mp hs with hs | hs
    · exact ih hparent s hs
    · rw [List.mem_singleton.mp hs]
      exact hown

/-- No level is deeper than the number of values. -/
theorem forest_ends (hcycle : listed.cycle = some (cols, mark)) (hc : Comparable types cols)
    {values : List Value} (hof : ∀ t ∈ values, OfType (recordType types cols) t)
    (hvalues : ∀ k, ∀ d ∈ (forest terms listed unionAll k).1,
      ∃ t ∈ values, (tuple cols d.user).notDistinctFrom t = true) :
    (forest terms listed unionAll (values.length + 1)).2 = [] := by
  rw [List.eq_nil_iff_forall_not_mem]
  intro d hd
  obtain ⟨parent, hparent, hexp, -, -, -⟩ := mem_last_succ hd
  have htyped := ((typed_forest values.length).2 parent hparent).path hc
  have hp := values_cohere (recordType types cols)
  have hlen : (parent.path cols).length ≤ values.length := by
    have hsep := (fresh_of_expands hcycle hparent hexp).pairwise
    apply @length_le_of_covered Value Value
      (fun s t => OfType (recordType types cols) s ∧ t ∈ values ∧ s.notDistinctFrom t = true)
    · intro s hs
      obtain ⟨t, ht, hst⟩ := path_covered hvalues hparent s hs
      exact ⟨t, ht, htyped s hs, ht, hst⟩
    · refine hsep.imp ?_
      intro s s' hss t hst hst'
      have hs : OrNull (OfType (recordType types cols)) s := .inr hst.1
      have hs' : OrNull (OfType (recordType types cols)) s' := .inr hst'.1
      have ht : OrNull (OfType (recordType types cols)) t := .inr (hof t hst.2.1)
      have h := (hp.notDistinct _ _ hs ht).mp hst.2.2
      have h' := (hp.notDistinct _ _ hs' ht).mp hst'.2.2
      have hss' := (hp.notDistinct _ _ hs' hs).mpr (hp.trans _ _ _ hs' ht hs h' (hp.symm _ _ hs ht h))
      rw [hss] at hss'
      cases hss'
  rw [Derivation.length_path, depth_last hparent] at hlen
  exact Nat.not_succ_le_self _ hlen

/-- The loop ends once a level of the forest is empty, or with an error before. -/
theorem recursiveLoop_ends (hadds : Adds types plan listed) {m fuel : ℕ} (hfuel : m < fuel)
    (h : (forest terms listed unionAll (k + m)).2 = []) :
    recursiveLoop plan terms unionAll fuel ((forest terms listed unionAll k).1.map listed.row)
      ((forest terms listed unionAll k).2.map listed.row) ≠ none := by
  induction m generalizing k fuel with
  | zero =>
    obtain ⟨fuel, rfl⟩ := Nat.exists_eq_succ_of_ne_zero (Nat.ne_zero_of_lt hfuel)
    rw [Nat.add_zero] at h
    rw [recursiveLoop, h, List.map_nil, if_pos List.isEmpty_nil]
    exact Option.some_ne_none _
  | succ m ih =>
    obtain ⟨fuel, rfl⟩ := Nat.exists_eq_succ_of_ne_zero (Nat.ne_zero_of_lt hfuel)
    rw [recursiveLoop]
    split
    · exact Option.some_ne_none _
    · split
      · exact Option.some_ne_none _
      · rename_i new hnew
        rw [keepRows_offspring hadds hnew, ← List.map_append]
        rw [← Nat.add_assoc, Nat.add_right_comm] at h
        exact ih (k := k + 1) (Nat.lt_of_succ_lt_succ hfuel) h

theorem forest_of_not_distinguishes (hcycle : listed.cycle = some (cols, mark))
    (h : mark.distinguishes = false) : (forest terms listed unionAll 1).2 = [] := by
  rw [List.eq_nil_iff_forall_not_mem]
  intro d hd
  obtain ⟨parent, -, hexp, -, -, -⟩ := mem_last_succ hd
  rw [expands_cycle hcycle, h] at hexp
  cases hexp

end Cycles

/-- What the clauses do to a recursive expression: its rows are those of the derivation forest with the
    columns of their derivations, the depth-first column orders them in preorder, and finitely many values
    of the cycle columns end it. -/
structure SearchCycleLaws {types : List ColType} (plan : SearchCyclePlan) (listed : Listed)
    (terms : Terms types) (unionAll : Bool) : Prop where
  rows : ∀ fuel rows, materializeRecursive plan terms unionAll fuel = some (.ok rows) →
    ∃ n, (forest terms listed unionAll n).2 = [] ∧
      rows = (forest terms listed unionAll n).1.map listed.row
  preorder : ∀ cols, listed.search = some (false, cols) → Comparable types cols →
    ∀ n sorted, sorted.Perm (forest terms listed unionAll n).1 →
      (sorted.Pairwise fun a b =>
        valueCmp (searchValue false cols a) (searchValue false cols b) ≠ .gt) →
      Preorder types cols sorted
  unmarked : ∀ cols mark, listed.cycle = some (cols, mark) → mark.distinguishes = false →
    (forest terms listed unionAll 1).2 = []
  ends : ∀ cols mark, listed.cycle = some (cols, mark) →
    ∀ values : List Value, (∀ t ∈ values, OfType (recordType types cols) t) →
      (∀ k, ∀ d ∈ (forest terms listed unionAll k).1,
        ∃ t ∈ values, (tuple cols d.user).notDistinctFrom t = true) →
      ∃ n, ∀ fuel, n ≤ fuel → materializeRecursive plan terms unionAll fuel ≠ none

/-- The clauses mark exactly the derivations of the rows. -/
theorem search_cycle_laws {cte : Clauses} {columns : List (String × ColType)} {plan : SearchCyclePlan}
    (h : planSearchCycle cte columns = .ok plan) (terms : Terms (columns.map Prod.snd))
    (unionAll : Bool) :
    SearchCycleLaws plan (cte.listed (columns.map Prod.fst)) terms unionAll := by
  have hadds := planSearchCycle_adds h
  constructor
  · exact fun fuel rows hrun => materializeRecursive_forest hadds hrun
  · exact fun cols _ hc n sorted hperm hsorted => preorder_of_sorted hc hperm hsorted
  · exact fun cols mark hcycle hmark => forest_of_not_distinguishes hcycle hmark
  · intro cols mark hcycle values hof hvalues
    have hend := forest_ends hcycle (hadds.comparable _ hcycle) hof hvalues
    refine ⟨values.length + 2, fun fuel hfuel => ?_⟩
    rw [materializeRecursive_eq hadds]
    apply recursiveLoop_ends hadds (Nat.lt_of_succ_le hfuel)
    rw [Nat.zero_add]
    exact hend

/-- The rows derived from a row 1: a row 2. -/
def afterOne : List Row → List (Nat × Row)
  | (.int 1 :: _) :: _ => [(0, [.int 2])]
  | _ => []

/-- An anchor row 1, and a row 2 derived from it. -/
def oneTwo : Terms [.scalar .int64] where
  anchor := [[.int 1]]
  derive := afterOne
  anchor_ok row hrow := by
    rw [List.mem_singleton.mp hrow]
    exact .cons (fun _ => .inr (by rw [OfType]; trivial)) .nil
  derive_ok working d hd := by
    rw [afterOne.eq_def] at hd
    split at hd
    · rw [List.mem_singleton.mp hd]
      exact ⟨Nat.succ_pos _, .cons (fun _ => .inr (by rw [OfType]; trivial)) .nil⟩
    · cases hd

/-- `CYCLE n SET m TO NULL DEFAULT 0 USING p`. -/
def nullMark : CycleMark where
  ty := .scalar .int32
  value := .null
  default := .int 0
  value_ok := .inl rfl
  default_ok := .inr trivial

/-- `CYCLE n SET m USING p`. -/
def boolMark : CycleMark where
  ty := .scalar .bool
  value := .bool true
  default := .bool false
  value_ok := .inr trivial
  default_ok := .inr trivial

def cycleOnN (mark : CycleMark) : Clauses := ⟨none, some (⟨["n"], "m", "p"⟩, mark)⟩

theorem search_cycle_laws_oneTwo :
    SearchCycleLaws (addedColumns 1 none (some (⟨["n"], "m", "p"⟩, boolMark, [0])))
      ((cycleOnN boolMark).listed ["n"]) oneTwo true :=
  @search_cycle_laws (cycleOnN boolMark) [("n", .scalar .int64)] _ rfl oneTwo true

/-- With a NULL mark the row derived from a row that is not marked is dropped. -/
theorem nullMark_drops :
    planSearchCycle (cycleOnN nullMark) [("n", .scalar .int64)] =
        .ok (addedColumns 1 none (some (⟨["n"], "m", "p"⟩, nullMark, [0]))) ∧
      oneTwo.derive [[.int 1, .int 0, arrayOf [tuple [0] [.int 1]]]] = [(0, [.int 2])] ∧
      (Derivation.anchor 0 [.int 1]).closes [0] = false ∧
      materializeRecursive (addedColumns 1 none (some (⟨["n"], "m", "p"⟩, nullMark, [0]))) oneTwo true 2 =
        some (.ok [[.int 1, .int 0, arrayOf [tuple [0] [.int 1]]]]) :=
  ⟨rfl, rfl, rfl, rfl⟩

/-- A row 2 of each row 1. -/
def afterEachOne (working : List Row) : List (Nat × Row) :=
  working.zipIdx.filterMap fun row => match row.1 with
    | .int 1 :: _ => some (row.2, [.int 2])
    | _ => none

/-- Two anchor rows 1, and a row 2 derived from each. -/
def twins : Terms [.scalar .int64] where
  anchor := [[.int 1], [.int 1]]
  derive := afterEachOne
  anchor_ok row hrow := by
    rw [show row = [.int 1] by simpa using hrow]
    exact .cons (fun _ => .inr (by rw [OfType]; trivial)) .nil
  derive_ok working d hd := by
    obtain ⟨row, hrow, heq⟩ := List.mem_filterMap.mp hd
    split at heq
    · cases heq
      exact ⟨(List.mem_zipIdx' hrow).1, .cons (fun _ => .inr (by rw [OfType]; trivial)) .nil⟩
    · cases heq

/-- Of two rows with one path, sorted by the depth-first column the second stands between the first and the
    row that the first derives. -/
theorem tied_paths_interleave :
    let first := Derivation.anchor 0 [.int 1]
    let second := Derivation.anchor 1 [.int 1]
    let sorted := [first, second, .child first 0 [.int 2], .child second 1 [.int 2]]
    (forest twins ⟨some (false, [0]), none⟩ true 1).1 = sorted ∧
      (sorted.Pairwise fun a b => valueCmp (searchValue false [0] a) (searchValue false [0] b) ≠ .gt) ∧
      first ∈ (Derivation.child first 0 [.int 2]).ancestors ∧ first ∉ second.ancestors :=
  ⟨rfl, by decide, List.mem_singleton_self _, List.not_mem_nil⟩

end Jed.Cte
