import Jed.Cte.SearchCycle

/-!
# The derivation forest of a recursive common table expression

What the rows of a recursive expression are by their derivations, from which the columns that `SEARCH` and
`CYCLE` add are read off: the rows that the iteration emits are those, with exactly these columns.
-/

namespace Jed.Cte

open Key Compare
open Access (CmpOp arrayOf)
open Implies (rowCmp3 from3 evalQuantified notTv quantifiedMembership)

/-! ## Derivations -/

/-- A row by its derivation: a row of the first term, or what the second made of a parent. `place` is where
    it stood in the result of its term. -/
inductive Derivation where
  | anchor (place : Nat) (user : Row)
  | child (parent : Derivation) (place : Nat) (user : Row)

/-- The listed columns of a row. -/
def fieldsAt (cols : List Nat) (row : Row) : List Value := cols.map fun i => row.getD i .null

/-- The record of the listed columns of a row. -/
def tuple (cols : List Nat) (row : Row) : Value := .composite (fieldsAt cols row)

namespace Derivation

def user : Derivation → Row
  | anchor _ user => user
  | child _ _ user => user

/-- The number of steps from the anchor row. -/
def depth : Derivation → Nat
  | anchor _ _ => 0
  | child parent _ _ => parent.depth + 1

/-- The rows it derives from, its parent first. -/
def ancestors : Derivation → List Derivation
  | anchor _ _ => []
  | child parent _ _ => parent :: parent.ancestors

/-- The records along the derivation, the anchor row's first. -/
def path (cols : List Nat) : Derivation → List Value
  | anchor _ user => [tuple cols user]
  | child parent _ user => parent.path cols ++ [tuple cols user]

/-- The record is not distinct from one on the parent's path. -/
def closes (cols : List Nat) : Derivation → Bool
  | anchor _ _ => false
  | child parent _ user => (parent.path cols).any fun t => (tuple cols user).notDistinctFrom t

end Derivation

/-- `default <> value`: whether the two constants tell a marked row from another. -/
def CycleMark.distinguishes (mark : CycleMark) : Bool := rowCmp3 .ne mark.default mark.value == .true

/-- The path, or the depth with the row's own fields. -/
def searchValue (breadthFirst : Bool) (cols : List Nat) (d : Derivation) : Value :=
  if breadthFirst then .composite (.int d.depth :: fieldsAt cols d.user) else arrayOf (d.path cols)

def markValue (mark : CycleMark) (cols : List Nat) (d : Derivation) : Value :=
  if d.closes cols then mark.value else mark.default

/-- What the clauses list, by position. -/
structure Listed where
  search : Option (Bool × List Nat)
  cycle : Option (List Nat × CycleMark)

def Clauses.listed (cte : Clauses) (names : List String) : Listed where
  search := cte.search.map fun s => (s.breadthFirst, s.columns.map fun col => names.idxOf col)
  cycle := cte.cycle.map fun c => (c.1.columns.map fun col => names.idxOf col, c.2)

namespace Listed

variable (listed : Listed)

def searchColumn (d : Derivation) : List Value :=
  match listed.search with
  | none => []
  | some (breadthFirst, cols) => [searchValue breadthFirst cols d]

/-- The mark and the path. -/
def cycleColumns (d : Derivation) : List Value :=
  match listed.cycle with
  | none => []
  | some (cols, mark) => [markValue mark cols d, arrayOf (d.path cols)]

def added (d : Derivation) : List Value := listed.searchColumn d ++ listed.cycleColumns d

def row (d : Derivation) : Row := d.user ++ listed.added d

/-- Whether the rows derived from a row are kept. -/
def expands (d : Derivation) : Bool :=
  match listed.cycle with
  | none => true
  | some (cols, mark) => mark.distinguishes && !d.closes cols

end Listed

section Forest

variable {types : List ColType} (terms : Terms types) (listed : Listed) (unionAll : Bool)

def roots : List Derivation := terms.anchor.zipIdx.map fun d => .anchor d.2 d.1

/-- What derives from the rows of one level that are expanded. -/
def offspring (level : List Derivation) : List Derivation :=
  (terms.derive (level.map listed.row)).zipIdx.filterMap fun d =>
    (level[d.1.1]?).bind fun parent =>
      if listed.expands parent then some (.child parent d.2 d.1.2) else none

/-- The derivations of at most so many steps, and those of the last step alone. -/
def forest : Nat → List Derivation × List Derivation
  | 0 => (keepRows listed.row unionAll [] (roots terms), keepRows listed.row unionAll [] (roots terms))
  | k + 1 =>
    ((forest k).1 ++ keepRows listed.row unionAll (forest k).1 (offspring terms listed (forest k).2),
      keepRows listed.row unionAll (forest k).1 (offspring terms listed (forest k).2))

end Forest

/-! ## Evaluation -/

theorem fieldsAt_append {cols : List Nat} {u : Row} (h : ∀ i ∈ cols, i < u.length) (tail : List Value) :
    fieldsAt cols (u ++ tail) = fieldsAt cols u := by
  rw [fieldsAt, fieldsAt]
  apply List.map_congr_left
  intro i hi
  rw [List.getD_eq_getElem?_getD, List.getD_eq_getElem?_getD, List.getElem?_append_left (h i hi)]

theorem evalAll_columns {cols : List Nat} {row : Row} (h : ∀ i ∈ cols, i < row.length) :
    evalAll (cols.map .column) row = .ok (fieldsAt cols row) := by
  induction cols with
  | nil => rfl
  | cons i cols ih =>
    rw [List.forall_mem_cons] at h
    rw [List.map_cons, evalAll, RExpr.eval, List.getElem?_eq_getElem h.1, ih h.2]
    show Except.ok _ = Except.ok _
    rw [fieldsAt, fieldsAt, List.map_cons, List.getD_eq_getElem?_getD, List.getElem?_eq_getElem h.1]
    rfl

theorem eval_rowOf {cols : List Nat} {u : Row} (h : ∀ i ∈ cols, i < u.length) (tail : List Value) :
    (rowOf cols).eval (u ++ tail) = .ok (tuple cols u) := by
  have hlt : ∀ i ∈ cols, i < (u ++ tail).length := fun i hi => by
    rw [List.length_append]
    exact Nat.lt_add_right _ (h i hi)
  rw [rowOf, RExpr.eval, evalAll_columns hlt, fieldsAt_append h]
  rfl

theorem eval_path {cols : List Nat} {u : Row} (h : ∀ i ∈ cols, i < u.length) (tail : List Value) :
    (RExpr.array [rowOf cols]).eval (u ++ tail) = .ok (arrayOf [tuple cols u]) := by
  rw [RExpr.eval, evalAll, eval_rowOf h, evalAll]
  rfl

variable {v : Value}

theorem eval_column {i : Nat} {row : Row} (h : row[i]? = some v) :
    (RExpr.column i).eval row = .ok v := by
  rw [RExpr.eval, h]

variable {p : List Value}

theorem arrayOf_of_ne_nil (hp : p ≠ []) : arrayOf p = .array [p.length] [1] p := by
  rw [arrayOf, if_neg]
  rw [List.isEmpty_iff]
  exact hp

theorem arrayCatValues_path (hp : p ≠ []) {t : Value}
    (h : arrayCatValues (arrayOf p) (arrayOf [t]) = .ok v) : v = arrayOf (p ++ [t]) := by
  rw [arrayOf_of_ne_nil hp, arrayOf_of_ne_nil (List.cons_ne_nil t []), arrayCatValues, if_pos rfl,
    if_neg (by simp), grown, Results.bind_eq_ok] at h
  obtain ⟨_, -, h⟩ := h
  rw [arrayOf_of_ne_nil (List.append_ne_nil_of_left_ne_nil hp [t]), List.length_append]
  exact (Results.pure_eq_ok.mp h).symm

theorem addInt_one {n : Nat} (h : addInt (.int n) (.int 1) = .ok v) :
    v = .int ((n + 1 : Nat) : Int) := by
  rw [addInt] at h
  split at h
  · cases h
  · cases h
    rfl

/-- A record is looked for among those of a path by the order of records. -/
theorem quantified_path (fields : List Value) (hp : ∀ t ∈ p, ∃ c, t = .composite c) :
    quantifiedMembership .eq false false none (.composite fields) p false =
      .ok (.bool (p.any fun t => valueCmp (.composite fields) t == .eq)) := by
  induction p with
  | nil => rfl
  | cons t p ih =>
    rw [List.forall_mem_cons] at hp
    obtain ⟨⟨c, rfl⟩, hp⟩ := hp
    have helem : Implies.elementCmp3 .eq false none (.composite fields) (.composite c) =
        .ok (bool3 (valueCmp (.composite fields) (.composite c) == .eq)) := rfl
    rw [quantifiedMembership, helem, List.any_cons]
    cases valueCmp (.composite fields) (.composite c) == .eq with
    | true => rfl
    | false => exact ih hp

/-! ## Types -/

theorem Derivation.path_ne_nil (cols : List Nat) (d : Derivation) : d.path cols ≠ [] := by
  cases d with
  | anchor => exact List.cons_ne_nil _ _
  | child => exact List.append_ne_nil_of_right_ne_nil _ (List.cons_ne_nil _ _)

theorem Derivation.path_composite (cols : List Nat) (d : Derivation) :
    ∀ t ∈ d.path cols, ∃ c, t = .composite c := by
  induction d with
  | anchor place user =>
    intro t ht
    exact ⟨_, List.mem_singleton.mp ht⟩
  | child parent place user ih =>
    intro t ht
    rcases List.mem_append.mp ht with h | h
    · exact ih t h
    · exact ⟨_, List.mem_singleton.mp h⟩

/-- Every row of the derivation is of the types of the columns. -/
def Derivation.Typed (types : List ColType) : Derivation → Prop
  | anchor _ user => List.Forall₂ OfColumn types user
  | child parent _ user => parent.Typed types ∧ List.Forall₂ OfColumn types user

/-- Columns with an equality. -/
def Comparable (types : List ColType) (cols : List Nat) : Prop :=
  ∀ i ∈ cols, ∃ t, types[i]? = some t ∧ comparable t = true

/-- The type of the record of some columns. -/
def recordType (types : List ColType) (cols : List Nat) : ColType :=
  .composite (cols.map fun i => types.getD i (.scalar .bool))

theorem forall₂_getElem? {α β : Type} {R : α → β → Prop} {as : List α} {bs : List β}
    (h : List.Forall₂ R as bs) {i : ℕ} {a : α} (ha : as[i]? = some a) : ∃ b, bs[i]? = some b ∧ R a b := by
  induction h generalizing i with
  | nil => cases ha
  | cons hab _ ih =>
    cases i with
    | zero =>
      cases ha
      exact ⟨_, rfl, hab⟩
    | succ i => exact ih ha

theorem ofType_tuple {types : List ColType} {cols : List Nat} {u : Row} (hc : Comparable types cols)
    (hu : List.Forall₂ OfColumn types u) : OfType (recordType types cols) (tuple cols u) := by
  rw [recordType, tuple, OfType]
  induction cols with
  | nil => exact trivial
  | cons i cols ih =>
    obtain ⟨hi, hc⟩ := List.forall_mem_cons.mp hc
    obtain ⟨t, ht, hcomp⟩ := hi
    obtain ⟨v, hv, hty⟩ := forall₂_getElem? hu ht
    have htype : types.getD i (.scalar .bool) = t := by rw [List.getD_eq_getElem?_getD, ht]; rfl
    have huser : u.getD i .null = v := by rw [List.getD_eq_getElem?_getD, hv]; rfl
    rw [fieldsAt, List.map_cons, List.map_cons, OfFields, htype, huser]
    exact ⟨hty hcomp, ih hc⟩

theorem Derivation.Typed.user {types : List ColType} {d : Derivation} (h : d.Typed types) :
    List.Forall₂ OfColumn types d.user := by
  cases d with
  | anchor => exact h
  | child => exact h.2

theorem Derivation.Typed.path {types : List ColType} {cols : List Nat} (hc : Comparable types cols)
    {d : Derivation} (h : d.Typed types) : ∀ t ∈ d.path cols, OfType (recordType types cols) t := by
  induction d with
  | anchor place user =>
    intro t ht
    rw [List.mem_singleton.mp ht]
    exact ofType_tuple hc h
  | child parent place user ih =>
    intro t ht
    rcases List.mem_append.mp ht with ht | ht
    · exact ih h.1 t ht
    · rw [List.mem_singleton.mp ht]
      exact ofType_tuple hc h.2

theorem valueCmp_eq_iff_notDistinct {t : ColType} {a b : Value} (ha : OfType t a) (hb : OfType t b) :
    valueCmp a b = .eq ↔ a.notDistinctFrom b = true :=
  ((values_cohere t).cmp_eq a b (.inr ha) (.inr hb)).trans
    ((values_cohere t).notDistinct a b (.inr ha) (.inr hb)).symm

mutual

/-- A value is never unequal to itself, whatever NULLs are among its fields. -/
theorem eq3_self : ∀ {v : Value} {t : ColType}, OrNull (OfType t) v → v.eq3 v ≠ .false
  | .null, _, _ => by decide
  | .composite fields, t, h => by
    cases t with
    | composite types =>
      rw [Value.eq3]
      exact fieldsEq3_self false (h.resolve_left Value.noConfusion)
    | _ => exact absurd (h.resolve_left Value.noConfusion) (by simp [OfType, OfScalar])
  | .int _, t, h | .bool _, t, h | .float32 _, t, h | .float64 _, t, h | .text _, t, h | .decimal _, t, h
  | .bytea _, t, h | .uuid _, t, h | .timestamp _, t, h | .timestamptz _, t, h | .date _, t, h
  | .interval _, t, h | .array _ _ _, t, h | .range _, t, h | .json _, t, h | .jsonb _, t, h
  | .jsonPath _, t, h => by
    rw [((values_cohere t).eq3 _ _ h h rfl rfl).mpr ((values_cohere t).total.refl h)]
    decide

theorem fieldsEq3_self : ∀ {fields : List Value} {types : List ColType} (anyUnknown : Bool),
    OfFields types fields → Value.fieldsEq3 fields fields anyUnknown ≠ .false
  | [], _, anyUnknown, _ => by cases anyUnknown <;> decide
  | v :: fields, [], _, h => h.elim
  | v :: fields, t :: types, anyUnknown, h => by
    rw [Value.fieldsEq3]
    split
    case h_1 hfalse => exact absurd hfalse (eq3_self h.1)
    case h_2 => exact fieldsEq3_self true h.2
    case h_3 => exact fieldsEq3_self anyUnknown h.2

end

theorem CycleMark.ne_self (mark : CycleMark) : rowCmp3 .ne mark.value mark.value ≠ .true := by
  have hself := eq3_self mark.value_ok
  rw [rowCmp3]
  cases h : mark.value.eq3 mark.value with
  | false => exact absurd h hself
  | _ => decide

/-! ## The added columns -/

theorem isTrue_from3 (tv : ThreeValued) : Access.isTrue (from3 tv) = (tv == .true) := by
  cases tv <;> rfl

section Columns

variable {types : List ColType} {cols : List Nat} {u : Row}

theorem eval_searchAnchor (h : ∀ i ∈ cols, i < u.length) (breadthFirst : Bool) (place : ℕ) :
    (searchAnchor breadthFirst cols).eval u =
      .ok (searchValue breadthFirst cols (.anchor place u)) := by
  cases breadthFirst with
  | true =>
    rw [searchAnchor, if_pos rfl, RExpr.eval, evalAll, evalAll_columns h]
    rfl
  | false =>
    have := eval_path h []
    rw [List.append_nil] at this
    exact this

variable {tail : List Value} {k : ℕ} {parent : Derivation}

theorem eval_searchRecursive (h : ∀ i ∈ cols, i < u.length) {breadthFirst : Bool}
    (hk : (u ++ tail)[k]? = some (searchValue breadthFirst cols parent))
    {v : Value} (hv : (searchRecursive breadthFirst k cols).eval (u ++ tail) = .ok v) (place : ℕ) :
    v = searchValue breadthFirst cols (.child parent place u) := by
  cases breadthFirst with
  | true =>
    have hnext : (RExpr.add (.field (.column k) 0) (.const (.int 1))).eval (u ++ tail) =
        addInt (.int parent.depth) (.int 1) := by
      have hfield : (RExpr.field (.column k) 0).eval (u ++ tail) = .ok (.int parent.depth) := by
        rw [RExpr.eval, eval_column hk]
        rfl
      rw [RExpr.eval, hfield, RExpr.eval]
      rfl
    have hlt : ∀ i ∈ cols, i < (u ++ tail).length := fun i hi => by
      rw [List.length_append]
      exact Nat.lt_add_right _ (h i hi)
    rw [searchRecursive, if_pos rfl, RExpr.eval, evalAll, hnext, evalAll_columns hlt,
      fieldsAt_append h] at hv
    obtain ⟨vals, hvals, hv⟩ := Results.bind_eq_ok.mp hv
    obtain ⟨depth, hdepth, hvals⟩ := Results.bind_eq_ok.mp hvals
    rw [← Results.pure_eq_ok.mp hv, ← Results.pure_eq_ok.mp hvals, addInt_one hdepth]
    rfl
  | false =>
    rw [searchRecursive, if_neg Bool.false_ne_true, RExpr.eval, eval_column hk, eval_path h] at hv
    exact arrayCatValues_path (parent.path_ne_nil cols) hv

theorem evalAll_cycleAnchor (h : ∀ i ∈ cols, i < u.length) (mark : CycleMark) :
    evalAll (cycleAnchor mark cols) u = .ok [mark.default, arrayOf [tuple cols u]] := by
  have hpath := eval_path h []
  rw [List.append_nil] at hpath
  rw [cycleAnchor, evalAll, evalAll, hpath, evalAll]
  rfl

/-- The record is looked for on the parent's path. -/
theorem eval_onPath (hc : Comparable types cols) (h : ∀ i ∈ cols, i < u.length)
    (hp : parent.Typed types) (hu : List.Forall₂ OfColumn types u)
    (hk : (u ++ tail)[k]? = some (arrayOf (parent.path cols))) (place : ℕ) :
    (RExpr.quantified .eq false (rowOf cols) (.column k)).eval (u ++ tail) =
      .ok (.bool ((Derivation.child parent place u).closes cols)) := by
  have hany : ((parent.path cols).any fun t => valueCmp (tuple cols u) t == .eq) =
      (Derivation.child parent place u).closes cols := by
    rw [Derivation.closes, Bool.eq_iff_iff, List.any_eq_true, List.any_eq_true]
    refine exists_congr fun t => and_congr_right fun ht => ?_
    rw [beq_iff_eq]
    exact valueCmp_eq_iff_notDistinct (ofType_tuple hc hu) (hp.path hc t ht)
  rw [RExpr.eval, eval_rowOf h, eval_column hk, arrayOf_of_ne_nil (parent.path_ne_nil cols), ← hany]
  show lift (quantifiedMembership _ _ _ _ _ _ _) = _
  rw [tuple, quantified_path _ (parent.path_composite cols)]
  rfl

theorem evalAll_cycleRecursive (hc : Comparable types cols) (h : ∀ i ∈ cols, i < u.length)
    (hp : parent.Typed types)
    (hu : List.Forall₂ OfColumn types u) (hk : (u ++ tail)[k]? = some (arrayOf (parent.path cols)))
    {mark : CycleMark} {vs : List Value}
    (hvs : evalAll (cycleRecursive mark k cols) (u ++ tail) = .ok vs) (place : ℕ) :
    vs = [markValue mark cols (.child parent place u),
      arrayOf ((Derivation.child parent place u).path cols)] := by
  have hmark : (RExpr.case (.quantified .eq false (rowOf cols) (.column k)) (.const mark.value)
      (.const mark.default)).eval (u ++ tail) =
        .ok (markValue mark cols (.child parent place u)) := by
    rw [RExpr.eval, eval_onPath hc h hp hu hk place, markValue]
    cases (Derivation.child parent place u).closes cols <;> rfl
  have hcat : (RExpr.arrayCat (.column k) (.array [rowOf cols])).eval (u ++ tail) =
      arrayCatValues (arrayOf (parent.path cols)) (arrayOf [tuple cols u]) := by
    rw [RExpr.eval, eval_column hk, eval_path h]
    rfl
  rw [cycleRecursive, evalAll, evalAll, hmark, hcat, evalAll] at hvs
  obtain ⟨m, hm, hvs⟩ := Results.bind_eq_ok.mp hvs
  obtain ⟨rest, hrest, hvs⟩ := Results.bind_eq_ok.mp hvs
  obtain ⟨path, hpath, hrest⟩ := Results.bind_eq_ok.mp hrest
  rw [← Results.pure_eq_ok.mp hvs, ← Results.pure_eq_ok.mp hrest, ← Except.ok.inj hm,
    arrayCatValues_path (parent.path_ne_nil cols) hpath]
  rfl

/-- The filter on the parent's mark: TRUE where the constants differ and the parent is not marked. -/
theorem passes_cycleFilter {row : Row} {mark : CycleMark} (hk : row[k]? = some (markValue mark cols parent)) :
    passes (some (cycleFilter mark k)) row = .ok (mark.distinguishes && !parent.closes cols) := by
  have heval : (cycleFilter mark k).eval row =
      .ok (from3 (rowCmp3 .ne (markValue mark cols parent) mark.value)) := by
    rw [cycleFilter, RExpr.eval, eval_column hk]
    rfl
  rw [passes, heval]
  show Except.ok (Access.isTrue _) = _
  rw [isTrue_from3, CycleMark.distinguishes]
  cases hcl : parent.closes cols with
  | true =>
    rw [markValue, if_pos hcl, Bool.not_true, Bool.and_false, beq_eq_false_iff_ne.mpr mark.ne_self]
  | false =>
    rw [markValue, hcl, Bool.not_false, Bool.and_true]
    rfl

end Columns

/-! ## The plan -/

/-- The plan adds the columns of the derivations: a row has the one its derivation gives it, and passes the
    filter where its parent is expanded. -/
structure Adds (types : List ColType) (plan : SearchCyclePlan) (listed : Listed) : Prop where
  userCols : plan.userCols = types.length
  anchor : ∀ u place, List.Forall₂ OfColumn types u →
    evalAll plan.anchor u = .ok (listed.added (.anchor place u))
  filter : ∀ parent u, List.Forall₂ OfColumn types u →
    passes plan.filter (u ++ listed.added parent) = .ok (listed.expands parent)
  recursive : ∀ parent u place vs, parent.Typed types → List.Forall₂ OfColumn types u →
    evalAll plan.recursive (u ++ listed.added parent) = .ok vs →
      vs = listed.added (.child parent place u)
  comparable : ∀ c ∈ listed.cycle, Comparable types c.1

theorem getElem?_behind (u tail : List Value) (i : ℕ) : (u ++ tail)[u.length + i]? = tail[i]? := by
  rw [List.getElem?_append_right (Nat.le_add_right _ _), Nat.add_sub_cancel_left]

theorem adds_addedColumns {types : List ColType} (search : Option (SearchClause × List Nat))
    (cycle : Option (CycleClause × CycleMark × List Nat))
    (hsearch : ∀ s ∈ search, ∀ i ∈ s.2, i < types.length)
    (hcycle : ∀ c ∈ cycle, (∀ i ∈ c.2.2, i < types.length) ∧ Comparable types c.2.2) :
    Adds types (addedColumns types.length search cycle)
      ⟨search.map fun s => (s.1.breadthFirst, s.2), cycle.map fun c => (c.2.2, c.2.1)⟩ := by
  rcases search with _ | ⟨s, cols⟩
  · rcases cycle with _ | ⟨c, mark, cols'⟩
    · constructor
      · rfl
      · exact fun _ _ _ => rfl
      · exact fun _ _ _ => rfl
      · exact fun _ _ _ _ _ _ h => (Except.ok.inj h).symm
      · intro c hc
        cases hc
    · obtain ⟨hlt, hcomp⟩ := hcycle _ rfl
      constructor
      · rfl
      · intro u place hu
        exact evalAll_cycleAnchor (fun i hi => hu.length_eq ▸ hlt i hi) mark
      · intro parent u hu
        apply passes_cycleFilter
        rw [hu.length_eq]
        exact getElem?_behind u _ 0
      · intro parent u place vs hp hu hvs
        have hk := getElem?_behind u [markValue mark cols' parent, arrayOf (parent.path cols')] 1
        rw [← hu.length_eq] at hk
        exact evalAll_cycleRecursive hcomp (fun i hi => hu.length_eq ▸ hlt i hi) hp hu hk hvs place
      · intro c' hc'
        cases hc'
        exact hcomp
  · have hlts := hsearch _ rfl
    rcases cycle with _ | ⟨c, mark, cols'⟩
    · constructor
      · rfl
      · intro u place hu
        have := eval_searchAnchor (fun i hi => hu.length_eq ▸ hlts i hi) s.breadthFirst place
        show evalAll [searchAnchor s.breadthFirst cols] u = _
        rw [evalAll, this]
        rfl
      · exact fun _ _ _ => rfl
      · intro parent u place vs hp hu hvs
        have hk := getElem?_behind u [searchValue s.breadthFirst cols parent] 0
        rw [← hu.length_eq] at hk
        obtain ⟨v, hv, hvs⟩ := Results.bind_eq_ok.mp hvs
        rw [← Results.pure_eq_ok.mp hvs,
          eval_searchRecursive (fun i hi => hu.length_eq ▸ hlts i hi) hk hv place]
        rfl
      · intro c hc
        cases hc
    · obtain ⟨hlt, hcomp⟩ := hcycle _ rfl
      constructor
      · rfl
      · intro u place hu
        have := eval_searchAnchor (fun i hi => hu.length_eq ▸ hlts i hi) s.breadthFirst place
        show evalAll (searchAnchor s.breadthFirst cols :: cycleAnchor mark cols') u = _
        rw [evalAll, this, evalAll_cycleAnchor (fun i hi => hu.length_eq ▸ hlt i hi) mark]
        rfl
      · intro parent u hu
        apply passes_cycleFilter
        rw [hu.length_eq]
        exact getElem?_behind u _ 1
      · intro parent u place vs hp hu hvs
        let tail := [searchValue s.breadthFirst cols parent, markValue mark cols' parent,
          arrayOf (parent.path cols')]
        have hk := getElem?_behind u tail 0
        have hk' := getElem?_behind u tail 2
        rw [← hu.length_eq] at hk hk'
        obtain ⟨v, hv, hvs⟩ := Results.bind_eq_ok.mp hvs
        obtain ⟨rest, hrest, hvs⟩ := Results.bind_eq_ok.mp hvs
        rw [← Results.pure_eq_ok.mp hvs,
          eval_searchRecursive (fun i hi => hu.length_eq ▸ hlts i hi) hk hv place,
          evalAll_cycleRecursive hcomp (fun i hi => hu.length_eq ▸ hlt i hi) hp hu hk' hrest place]
        rfl
      · intro c' hc'
        cases hc'
        exact hcomp

theorem clauseColumns_ok {names : List String} {what : String} {done cols : List String}
    {at_ : List Nat} (h : clauseColumns names what done cols = .ok at_) :
    at_ = (cols.map fun col => names.idxOf col) ∧ ∀ i ∈ at_, i < names.length := by
  induction cols generalizing done at_ with
  | nil =>
    cases h
    exact ⟨rfl, fun i hi => absurd hi List.not_mem_nil⟩
  | cons col cols ih =>
    rw [clauseColumns] at h
    split at h
    · cases h
    · rename_i i hi
      split at h
      · cases h
      · obtain ⟨rest, hrest, h⟩ := Results.bind_eq_ok.mp h
        obtain ⟨heq, hlt⟩ := ih hrest
        have hidx : names.idxOf col = i := by
          rw [List.idxOf_eq_getD_idxOf?, hi]
          rfl
        have hmem : col ∈ names := by
          by_contra hmem
          rw [List.idxOf?_eq_none_iff.mpr hmem] at hi
          cases hi
        rw [← Results.pure_eq_ok.mp h]
        constructor
        · rw [List.map_cons, hidx, ← heq]
        · rw [List.forall_mem_cons, ← hidx]
          exact ⟨List.idxOf_lt_length_of_mem hmem, hlt⟩

theorem refuse_ok {c : Bool} {e : CteError} {x : Unit} (h : refuse c e = .ok x) : c = false := by
  cases c with
  | true => cases h
  | false => rfl

theorem comparable_of_check {columns : List (String × ColType)} {cols : List Nat} {x : Unit}
    (h : checkComparable columns cols = .ok x) : Comparable (columns.map Prod.snd) cols := by
  have hall := refuse_ok h
  rw [Bool.not_eq_false', List.all_eq_true] at hall
  intro i hi
  have hany := hall i hi
  cases hc : columns[i]? with
  | none =>
    rw [hc] at hany
    cases hany
  | some c =>
    rw [hc] at hany
    refine ⟨c.2, ?_, hany⟩
    rw [List.getElem?_map, hc]
    rfl

/-- An accepted pair of clauses is planned to add the columns it lists. -/
theorem planSearchCycle_adds {cte : Clauses} {columns : List (String × ColType)} {plan : SearchCyclePlan}
    (h : planSearchCycle cte columns = .ok plan) :
    Adds (columns.map Prod.snd) plan (cte.listed (columns.map Prod.fst)) := by
  obtain ⟨searchCols, hsearch, h⟩ := Results.bind_eq_ok.mp h
  obtain ⟨_, -, h⟩ := Results.bind_eq_ok.mp h
  obtain ⟨cycleCols, hcycle, h⟩ := Results.bind_eq_ok.mp h
  obtain ⟨_, -, h⟩ := Results.bind_eq_ok.mp h
  obtain ⟨_, -, h⟩ := Results.bind_eq_ok.mp h
  obtain ⟨_, hcomp, h⟩ := Results.bind_eq_ok.mp h
  have hlen : columns.length = (columns.map Prod.snd).length := (List.length_map _).symm
  rw [← Results.pure_eq_ok.mp h, hlen]
  have hs : ∀ s, cte.search = some s → searchCols = some (s.columns.map fun col =>
      (columns.map Prod.fst).idxOf col) ∧
        ∀ i ∈ s.columns.map fun col => (columns.map Prod.fst).idxOf col, i < columns.length := by
    intro s hs
    rw [searchPositions, hs] at hsearch
    obtain ⟨cols, hcols, hsearch⟩ := Results.bind_eq_ok.mp hsearch
    obtain ⟨rfl, hlt⟩ := clauseColumns_ok hcols
    exact ⟨(Results.pure_eq_ok.mp hsearch).symm, fun i hi => (hlt i hi).trans_eq (List.length_map _)⟩
  have hc : ∀ c, cte.cycle = some c → cycleCols = some (c.1.columns.map fun col =>
      (columns.map Prod.fst).idxOf col) ∧
        ∀ i ∈ c.1.columns.map fun col => (columns.map Prod.fst).idxOf col, i < columns.length := by
    intro c hc
    rw [cyclePositions, hc] at hcycle
    obtain ⟨cols, hcols, hcycle⟩ := Results.bind_eq_ok.mp hcycle
    obtain ⟨rfl, hlt⟩ := clauseColumns_ok hcols
    exact ⟨(Results.pure_eq_ok.mp hcycle).symm, fun i hi => (hlt i hi).trans_eq (List.length_map _)⟩
  have hadds := @adds_addedColumns (columns.map Prod.snd)
    (cte.search.bind fun s => searchCols.map fun cols => (s, cols))
    (cte.cycle.bind fun c => cycleCols.map fun cols => (c.1, c.2, cols)) (by
      intro s hmem i hi
      cases hcs : cte.search with
      | none =>
        rw [hcs] at hmem
        cases hmem
      | some s' =>
        rw [hcs, (hs s' hcs).1] at hmem
        obtain rfl := Option.some.inj hmem
        rw [← hlen]
        exact (hs s' hcs).2 i hi) (by
      intro c hmem
      cases hcc : cte.cycle with
      | none =>
        rw [hcc] at hmem
        cases hmem
      | some c' =>
        rw [hcc, (hc c' hcc).1] at hmem
        obtain rfl := Option.some.inj hmem
        rw [← hlen]
        rw [(hc c' hcc).1] at hcomp
        exact ⟨(hc c' hcc).2, comparable_of_check hcomp⟩)
  have hlisted : cte.listed (columns.map Prod.fst) =
      ⟨(cte.search.bind fun s => searchCols.map fun cols => (s, cols)).map fun s =>
          (s.1.breadthFirst, s.2),
        (cte.cycle.bind fun c => cycleCols.map fun cols => (c.1, c.2, cols)).map fun c =>
          (c.2.2, c.2.1)⟩ := by
    rw [Clauses.listed]
    congr 1
    · cases hcs : cte.search with
      | none => rfl
      | some s => rw [(hs s hcs).1]; rfl
    · cases hcc : cte.cycle with
      | none => rfl
      | some c => rw [(hc c hcc).1]; rfl
  rw [hlisted]
  exact hadds

/-! ## The rows of the forest -/

section Rows

variable {types : List ColType} {terms : Terms types} {plan : SearchCyclePlan} {listed : Listed}
  {unionAll : Bool}

theorem keepRows_map {α β : Type} (f : α → β) (row : β → Row) (unionAll : Bool) (seen as : List α) :
    keepRows row unionAll (seen.map f) (as.map f) =
      (keepRows (fun a => row (f a)) unionAll seen as).map f := by
  induction as generalizing seen with
  | nil => rfl
  | cons a as ih =>
    have hseen : (seen.map f).any (fun b => valuesEq (row (f a)) (row b)) =
        seen.any fun b => valuesEq (row (f a)) (row (f b)) := List.any_map
    rw [List.map_cons, keepRows, keepRows, hseen]
    split
    · have := ih (seen ++ [a])
      rw [List.map_append] at this
      rw [List.map_cons, ← this]
      rfl
    · exact ih seen

theorem mem_of_mem_keepRows {α : Type} {row : α → Row} {unionAll : Bool} {seen as : List α} {a : α}
    (h : a ∈ keepRows row unionAll seen as) : a ∈ as := by
  induction as generalizing seen with
  | nil => exact h
  | cons b as ih =>
    rw [keepRows] at h
    split at h
    · rcases List.mem_cons.mp h with rfl | h
      · exact List.mem_cons_self
      · exact List.mem_cons_of_mem _ (ih h)
    · exact List.mem_cons_of_mem _ (ih h)

variable {rows : List Row}

/-- The anchor rows get the columns of their derivations. -/
theorem searchCycleRows_anchor (hadds : Adds types plan listed) (start : ℕ)
    (hrows : ∀ row ∈ rows, List.Forall₂ OfColumn types row) :
    searchCycleRows plan plan.anchor none rows =
      .ok (((rows.zipIdx start).map fun d => Derivation.anchor d.2 d.1).map listed.row) := by
  induction rows generalizing start with
  | nil => rfl
  | cons row rows ih =>
    rw [List.forall_mem_cons] at hrows
    have htake : row.take plan.userCols = row := by
      rw [hadds.userCols, hrows.1.length_eq, List.take_length]
    rw [searchCycleRows, ih (start + 1) hrows.2, hadds.anchor row start hrows.1]
    show Except.ok _ = Except.ok _
    rw [htake]
    rfl

variable {level : List Derivation}

/-- The rows derived from one level get the columns of their derivations, those of a parent that is not
    expanded dropped. -/
theorem searchCycleRows_level (hadds : Adds types plan listed)
    (hlevel : ∀ d ∈ level, d.Typed types) {derived : List (ℕ × Row)} {start : ℕ}
    (hderived : ∀ d ∈ derived, d.1 < level.length ∧ List.Forall₂ OfColumn types d.2)
    (h : searchCycleRows plan plan.recursive plan.filter
      (derived.map fun d => d.2 ++ ((level.map listed.row).getD d.1 []).drop plan.userCols) =
        .ok rows) :
    rows = ((derived.zipIdx start).filterMap fun d => (level[d.1.1]?).bind fun parent =>
      if listed.expands parent then some (.child parent d.2 d.1.2) else none).map listed.row := by
  induction derived generalizing start rows with
  | nil =>
    cases h
    rfl
  | cons d derived ih =>
    rw [List.forall_mem_cons] at hderived
    obtain ⟨⟨hlt, hu⟩, hderived⟩ := hderived
    have hparent := List.getElem?_eq_getElem hlt
    have hmem := hlevel _ (List.getElem_mem hlt)
    have hcarried : ((level.map listed.row).getD d.1 []).drop plan.userCols =
        listed.added level[d.1] := by
      rw [List.getD_eq_getElem?_getD, List.getElem?_map, hparent, Option.map_some, Option.getD_some,
        Listed.row, hadds.userCols, hmem.user.length_eq, List.drop_left]
    rw [List.map_cons, hcarried, searchCycleRows, hadds.filter _ _ hu] at h
    rw [List.zipIdx_cons, List.filterMap_cons, hparent, Option.bind_some]
    cases hexp : listed.expands level[d.1] with
    | false =>
      rw [hexp] at h
      exact ih hderived h
    | true =>
      rw [hexp] at h
      obtain ⟨pass, hpass, h⟩ := Results.bind_eq_ok.mp h
      rw [← Except.ok.inj hpass, if_pos rfl] at h
      obtain ⟨added, hadded, h⟩ := Results.bind_eq_ok.mp h
      obtain ⟨out, hout, h⟩ := Results.bind_eq_ok.mp h
      rw [← Results.pure_eq_ok.mp h, ih hderived hout,
        hadds.recursive _ _ start _ hmem hu hadded, hadds.userCols, hu.length_eq, List.take_left]
      rfl

theorem typed_roots : ∀ d ∈ roots terms, d.Typed types := by
  intro d hd
  obtain ⟨a, ha, rfl⟩ := List.mem_map.mp hd
  exact terms.anchor_ok _ (List.fst_mem_of_mem_zipIdx ha)

/-- What derives from a level: a child of one of its rows that is expanded. -/
theorem mem_offspring {d : Derivation}
    (h : d ∈ offspring terms listed level) : ∃ parent ∈ level, listed.expands parent = true ∧
      ∃ place user, List.Forall₂ OfColumn types user ∧ d = .child parent place user := by
  obtain ⟨a, ha, h⟩ := List.mem_filterMap.mp h
  obtain ⟨parent, hparent, h⟩ := Option.bind_eq_some_iff.mp h
  split at h
  · rename_i hexp
    refine ⟨parent, List.mem_of_getElem? hparent, hexp, a.2, a.1.2, ?_, (Option.some.inj h).symm⟩
    exact (terms.derive_ok _ _ (List.fst_mem_of_mem_zipIdx ha)).2
  · cases h

theorem searchCycleRows_offspring (hadds : Adds types plan listed) (hlevel : ∀ d ∈ level, d.Typed types)
    (h : searchCycleRows plan plan.recursive plan.filter
      (terms.carried plan.userCols (level.map listed.row)) = .ok rows) :
    rows = (offspring terms listed level).map listed.row := by
  apply searchCycleRows_level hadds hlevel _ h
  intro d hd
  have := terms.derive_ok _ d hd
  rwa [List.length_map] at this

theorem typed_forest (k : ℕ) : (∀ d ∈ (forest terms listed unionAll k).1, d.Typed types) ∧
    ∀ d ∈ (forest terms listed unionAll k).2, d.Typed types := by
  induction k with
  | zero =>
    have h : ∀ d ∈ keepRows listed.row unionAll [] (roots terms), d.Typed types :=
      fun d hd => typed_roots d (mem_of_mem_keepRows hd)
    exact ⟨h, h⟩
  | succ k ih =>
    have hnew : ∀ d ∈ keepRows listed.row unionAll (forest terms listed unionAll k).1
        (offspring terms listed (forest terms listed unionAll k).2), d.Typed types := by
      intro d hd
      obtain ⟨parent, hparent, -, place, user, huser, rfl⟩ := mem_offspring (mem_of_mem_keepRows hd)
      exact ⟨ih.2 parent hparent, huser⟩
    refine ⟨fun d hd => ?_, hnew⟩
    rcases List.mem_append.mp hd with h | h
    · exact ih.1 d h
    · exact hnew d h

theorem keepRows_offspring (hadds : Adds types plan listed) {k : ℕ} {new : List Row}
    (hnew : searchCycleRows plan plan.recursive plan.filter
      (terms.carried plan.userCols ((forest terms listed unionAll k).2.map listed.row)) = .ok new) :
    keepRows id unionAll ((forest terms listed unionAll k).1.map listed.row) new =
      (forest terms listed unionAll (k + 1)).2.map listed.row := by
  rw [searchCycleRows_offspring hadds (typed_forest k).2 hnew, keepRows_map]
  rfl

/-- The loop, from one level of the forest: a result is the rows of the forest up to a level that is
    empty. -/
theorem recursiveLoop_forest (hadds : Adds types plan listed) {fuel k : ℕ}
    (h : recursiveLoop plan terms unionAll fuel ((forest terms listed unionAll k).1.map listed.row)
      ((forest terms listed unionAll k).2.map listed.row) = some (.ok rows)) :
    ∃ n, (forest terms listed unionAll n).2 = [] ∧
      rows = (forest terms listed unionAll n).1.map listed.row := by
  induction fuel generalizing k with
  | zero => cases h
  | succ fuel ih =>
    rw [recursiveLoop] at h
    split at h
    · rename_i hempty
      rw [List.isEmpty_iff, List.map_eq_nil_iff] at hempty
      exact ⟨k, hempty, (Except.ok.inj (Option.some.inj h)).symm⟩
    · split at h
      · cases h
      · rename_i new hnew
        rw [keepRows_offspring hadds hnew, ← List.map_append] at h
        exact ih (k := k + 1) h

theorem materializeRecursive_eq (hadds : Adds types plan listed) (fuel : ℕ) :
    materializeRecursive plan terms unionAll fuel =
      recursiveLoop plan terms unionAll fuel ((forest terms listed unionAll 0).1.map listed.row)
        ((forest terms listed unionAll 0).2.map listed.row) := by
  have hkept : keepRows id unionAll [] ((roots terms).map listed.row) =
      (keepRows listed.row unionAll [] (roots terms)).map listed.row :=
    keepRows_map listed.row id unionAll [] (roots terms)
  rw [materializeRecursive, searchCycleRows_anchor hadds 0 terms.anchor_ok, forest, ← hkept]
  rfl

theorem materializeRecursive_forest (hadds : Adds types plan listed) {fuel : ℕ}
    (h : materializeRecursive plan terms unionAll fuel = some (.ok rows)) :
    ∃ n, (forest terms listed unionAll n).2 = [] ∧
      rows = (forest terms listed unionAll n).1.map listed.row := by
  rw [materializeRecursive_eq hadds] at h
  exact recursiveLoop_forest hadds h

end Rows

end Jed.Cte
