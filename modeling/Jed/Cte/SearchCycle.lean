import Jed.Compare.Coherence
import Jed.Implies.Expr
import Jed.Lib.Results

/-!
# SEARCH and CYCLE of a recursive common table expression

The columns the two clauses add (`executor/search_cycle.rs`), as expressions over a row that still carries
its parent's, and the iteration that evaluates them (`executor/plan_query.rs:596-743`).
-/

namespace Jed.Cte

open Key Compare
open Access (CmpOp isTrue arrayOf)
open Implies (rowCmp3 from3 evalQuantified)

/-- A row of the expression, or of its recursive term with the parent's columns behind its own. -/
abbrev Row := List Value

/-- What refuses a clause, or ends the iteration. -/
inductive CteError where
  /-- `42601`. -/
  | syntaxError (message : String)
  /-- `42701`. -/
  | duplicateColumn (message : String)
  /-- `42883`: the columns of the cycle have no equality. -/
  | undefinedFunction
  /-- `22003`. -/
  | outOfRange
  /-- `2202E`. -/
  | arraySubscript (message : String)
  /-- `54000`: an array ends beyond the subscripts of an `i32`. -/
  | lowerBoundTooLarge (lbound : Int)
  | failure (f : Failure)
  deriving DecidableEq

def panic : CteError := .failure .panic

/-- `RExpr`, as far as the clauses build it. -/
inductive RExpr where
  | column (i : Nat)
  | const (v : Value)
  | row (fields : List RExpr)
  | array (elems : List RExpr)
  | field (base : RExpr) (index : Nat)
  | add (lhs rhs : RExpr)
  | arrayCat (lhs rhs : RExpr)
  | compare (op : CmpOp) (lhs rhs : RExpr)
  | quantified (op : CmpOp) (all : Bool) (lhs array : RExpr)
  | case (when value els : RExpr)

/-- `check_array_bounds` (`value.rs:377-387`). -/
def checkArrayBounds : List Nat → List Int → Except CteError Unit
  | dim :: dims, lbound :: lbounds =>
    if lbound + dim > 2 ^ 31 - 1 then .error (.lowerBoundTooLarge lbound)
    else checkArrayBounds dims lbounds
  | [], _ => .ok ()
  | _ :: _, [] => .error panic

/-- An array that has grown along its first dimension. -/
def grown (dims : List Nat) (lbounds : List Int) (elements : List Value) : Except CteError Value := do
  checkArrayBounds dims lbounds
  return .array dims lbounds elements

def incompatibleArrays : CteError := .arraySubscript "cannot concatenate incompatible arrays"

/-- `array_cat_values` (`eval_ops.rs:507-566`). -/
def arrayCatValues (a b : Value) : Except CteError Value :=
  match a, b with
  | .null, b => .ok b
  | a, .null => .ok a
  | .array [] _ _, b => .ok b
  | a, .array [] _ _ => .ok a
  | .array (aDim :: aDims) aLbounds aElements, .array (bDim :: bDims) bLbounds bElements =>
    if aDims.length = bDims.length then
      if aDims ≠ bDims ∨ aLbounds.tail ≠ bLbounds.tail then .error incompatibleArrays
      else grown ((aDim + bDim) :: aDims) aLbounds (aElements ++ bElements)
    else if aDims.length = bDims.length + 1 then
      if aDims ≠ bDim :: bDims ∨ aLbounds.tail ≠ bLbounds then .error incompatibleArrays
      else grown ((aDim + 1) :: aDims) aLbounds (aElements ++ bElements)
    else if bDims.length = aDims.length + 1 then
      if bDims ≠ aDim :: aDims ∨ bLbounds.tail ≠ aLbounds then .error incompatibleArrays
      else grown ((bDim + 1) :: bDims) bLbounds (aElements ++ bElements)
    else .error incompatibleArrays
  | _, _ => .error panic

attribute [grind =] arrayCatValues

/-- The sum of two `i64`. -/
def addInt (a b : Value) : Except CteError Value :=
  match a, b with
  | .int m, .int n =>
    if m + n < -2 ^ 63 ∨ 2 ^ 63 - 1 < m + n then .error .outOfRange else .ok (.int (m + n))
  | .null, _ => .ok .null
  | _, .null => .ok .null
  | _, _ => .error panic

attribute [grind =] addInt

/-- `RExpr::Field`. -/
def fieldOf (base : Value) (index : Nat) : Except CteError Value :=
  match base with
  | .composite fields =>
    match fields[index]? with
    | some v => .ok v
    | none => .error panic
  | .null => .ok .null
  | _ => .error panic

/-- A call that evaluation makes. -/
def lift {α : Type} (x : Except Failure α) : Except CteError α := x.mapError .failure

mutual

/-- `RExpr::eval`. -/
def RExpr.eval (e : RExpr) (row : Row) : Except CteError Value :=
  match e with
  | .column i =>
    match row[i]? with
    | some v => .ok v
    | none => .error panic
  | .const v => .ok v
  | .row fields => do
    let vals ← evalAll fields row
    return .composite vals
  | .array elems => do
    let vals ← evalAll elems row
    return arrayOf vals
  | .field base index => do
    let v ← base.eval row
    fieldOf v index
  | .add lhs rhs => do
    let l ← lhs.eval row
    let r ← rhs.eval row
    addInt l r
  | .arrayCat lhs rhs => do
    let l ← lhs.eval row
    let r ← rhs.eval row
    arrayCatValues l r
  | .compare op lhs rhs => do
    let l ← lhs.eval row
    let r ← rhs.eval row
    return from3 (rowCmp3 op l r)
  | .quantified op all lhs array => do
    let l ← lhs.eval row
    let a ← array.eval row
    lift (evalQuantified op all false none l a)
  | .case when value els => do
    let c ← when.eval row
    if isTrue c then value.eval row else els.eval row

def evalAll : List RExpr → Row → Except CteError (List Value)
  | [], _ => .ok []
  | e :: es, row => do
    let v ← e.eval row
    let vs ← evalAll es row
    return v :: vs

end

attribute [grind =] RExpr.eval evalAll

structure SearchClause where
  breadthFirst : Bool
  columns : List String
  setColumn : String

structure CycleClause where
  columns : List String
  markColumn : String
  pathColumn : String

/-- `CycleMark`: the two constants, of their common type. -/
structure CycleMark where
  ty : ColType
  value : Value
  default : Value
  value_ok : OrNull (OfType ty) value
  default_ok : OrNull (OfType ty) default

/-- What a recursive expression carries after its body. -/
structure Clauses where
  search : Option SearchClause
  cycle : Option (CycleClause × CycleMark)

/-- `SearchCyclePlan`. -/
structure SearchCyclePlan where
  userCols : Nat
  names : List String
  anchor : List RExpr
  recursive : List RExpr
  filter : Option RExpr

/-- `clause_columns`, of the columns left, behind those already read. -/
def clauseColumns (names : List String) (what : String) :
    (done : List String) → List String → Except CteError (List Nat)
  | _, [] => .ok []
  | done, col :: cols =>
    match names.idxOf? col with
    | none => .error (.syntaxError (what ++ " column \"" ++ col ++ "\" not in WITH query column list"))
    | some at_ =>
      if col ∈ done then
        .error (.duplicateColumn (what ++ " column \"" ++ col ++ "\" specified more than once"))
      else do
        let rest ← clauseColumns names what (done ++ [col]) cols
        return at_ :: rest

attribute [grind =] clauseColumns

mutual

/-- Whether the values of a type compare (`classify_comparable` of the type with itself). -/
def comparable : ColType → Bool
  | .scalar .json => false
  | .scalar .jsonPath => false
  | .scalar _ => true
  | .composite fields => comparableAll fields
  | .array elem => comparable elem
  | .range _ => true

def comparableAll : List ColType → Bool
  | [] => true
  | t :: types => comparable t && comparableAll types

end

/-- Refuse a clause under a condition. -/
def refuse (c : Bool) (e : CteError) : Except CteError Unit := if c then .error e else .ok ()

def usedInList (what col : String) : CteError :=
  .syntaxError (what ++ " \"" ++ col ++ "\" already used in WITH query column list")

def sameName (a b : String) : CteError := .syntaxError (a ++ " and " ++ b ++ " are the same")

/-- The positions of the columns that SEARCH lists. -/
def searchPositions (cte : Clauses) (names : List String) : Except CteError (Option (List Nat)) :=
  match cte.search with
  | some s => do
    let cols ← clauseColumns names "search" [] s.columns
    return some cols
  | none => .ok none

/-- The positions of the columns that CYCLE lists. -/
def cyclePositions (cte : Clauses) (names : List String) : Except CteError (Option (List Nat)) :=
  match cte.cycle with
  | some c => do
    let cols ← clauseColumns names "cycle" [] c.1.columns
    return some cols
  | none => .ok none

/-- The name of the search column. -/
def checkSearchName (cte : Clauses) (names : List String) : Except CteError Unit :=
  match cte.search with
  | some s => refuse (names.contains s.setColumn) (usedInList "search sequence column name" s.setColumn)
  | none => .ok ()

/-- The names of the cycle columns. -/
def checkCycleNames (cte : Clauses) (names : List String) : Except CteError Unit :=
  match cte.cycle with
  | some c => do
    refuse (names.contains c.1.markColumn) (usedInList "cycle mark column name" c.1.markColumn)
    refuse (names.contains c.1.pathColumn) (usedInList "cycle path column name" c.1.pathColumn)
    refuse (c.1.markColumn == c.1.pathColumn)
      (sameName "cycle mark column name" "cycle path column name")
  | none => .ok ()

/-- The names of the search column and of the cycle columns. -/
def checkBothNames (cte : Clauses) : Except CteError Unit :=
  match cte.search, cte.cycle with
  | some s, some c => do
    refuse (s.setColumn == c.1.markColumn)
      (sameName "search sequence column name" "cycle mark column name")
    refuse (s.setColumn == c.1.pathColumn)
      (sameName "search sequence column name" "cycle path column name")
  | _, _ => .ok ()

/-- The check that the columns of the cycle compare, at the resolution of `= ANY`. -/
def checkComparable (columns : List (String × ColType)) (cols : List Nat) : Except CteError Unit :=
  refuse (!cols.all fun i => (columns[i]?).any fun c => comparable c.2) .undefinedFunction

/-- `row_of`. -/
def rowOf (cols : List Nat) : RExpr := .row (cols.map .column)

/-- The search column of an anchor row. -/
def searchAnchor (breadthFirst : Bool) (cols : List Nat) : RExpr :=
  if breadthFirst then .row (.const (.int 0) :: cols.map .column) else .array [rowOf cols]

/-- The search column of a recursive-term row, over its parent's in column `k`. -/
def searchRecursive (breadthFirst : Bool) (k : Nat) (cols : List Nat) : RExpr :=
  if breadthFirst then
    .row (.add (.field (.column k) 0) (.const (.int 1)) :: cols.map .column)
  else .arrayCat (.column k) (.array [rowOf cols])

/-- The mark and the path of an anchor row. -/
def cycleAnchor (mark : CycleMark) (cols : List Nat) : List RExpr :=
  [.const mark.default, .array [rowOf cols]]

/-- The mark and the path of a recursive-term row, over its parent's path in column `k`. -/
def cycleRecursive (mark : CycleMark) (k : Nat) (cols : List Nat) : List RExpr :=
  [.case (.quantified .eq false (rowOf cols) (.column k)) (.const mark.value) (.const mark.default),
    .arrayCat (.column k) (.array [rowOf cols])]

/-- The filter over the parent's mark in column `k`. -/
def cycleFilter (mark : CycleMark) (k : Nat) : RExpr := .compare .ne (.column k) (.const mark.value)

/-- The added columns over `n` user columns: the search column, then the mark and the path. -/
def addedColumns (n : Nat) (search : Option (SearchClause × List Nat))
    (cycle : Option (CycleClause × CycleMark × List Nat)) : SearchCyclePlan :=
  match search, cycle with
  | none, none => ⟨n, [], [], [], none⟩
  | some (s, cols), none =>
    ⟨n, [s.setColumn], [searchAnchor s.breadthFirst cols],
      [searchRecursive s.breadthFirst n cols], none⟩
  | none, some (c, mark, cols) =>
    ⟨n, [c.markColumn, c.pathColumn], cycleAnchor mark cols, cycleRecursive mark (n + 1) cols,
      some (cycleFilter mark n)⟩
  | some (s, cols), some (c, mark, cols') =>
    ⟨n, [s.setColumn, c.markColumn, c.pathColumn],
      searchAnchor s.breadthFirst cols :: cycleAnchor mark cols',
      searchRecursive s.breadthFirst n cols :: cycleRecursive mark (n + 2) cols',
      some (cycleFilter mark (n + 1))⟩

/-- `plan_search_cycle`, over the user columns, each a name and a type. -/
def planSearchCycle (cte : Clauses) (columns : List (String × ColType)) :
    Except CteError SearchCyclePlan := do
  let searchCols ← searchPositions cte (columns.map Prod.fst)
  checkSearchName cte (columns.map Prod.fst)
  let cycleCols ← cyclePositions cte (columns.map Prod.fst)
  checkCycleNames cte (columns.map Prod.fst)
  checkBothNames cte
  checkComparable columns (cycleCols.getD [])
  return addedColumns columns.length
    (cte.search.bind fun s => searchCols.map fun cols => (s, cols))
    (cte.cycle.bind fun c => cycleCols.map fun cols => (c.1, c.2, cols))

/-- Whether a row passes a filter: unless that is TRUE, the row is dropped. -/
def passes (filter : Option RExpr) (row : Row) : Except CteError Bool :=
  match filter with
  | some f => do
    let v ← f.eval row
    return isTrue v
  | none => .ok true

/-- `search_cycle_rows`. -/
def searchCycleRows (plan : SearchCyclePlan) (exprs : List RExpr) (filter : Option RExpr) :
    List Row → Except CteError (List Row)
  | [] => .ok []
  | row :: rows => do
    if ← passes filter row then
      let added ← evalAll exprs row
      let out ← searchCycleRows plan exprs filter rows
      return (row.take plan.userCols ++ added) :: out
    else searchCycleRows plan exprs filter rows

attribute [grind =] searchCycleRows

/-- A value of a column: NULL, or of the column's type where its values compare. -/
def OfColumn (t : ColType) (v : Value) : Prop := comparable t = true → OrNull (OfType t) v

/-- The two terms of the expression: what the first gives, and what the second gives for a working table,
    each row derived from one row of it. All are of the first's types, those of the second after their
    coercion. -/
structure Terms (types : List ColType) where
  anchor : List Row
  derive : List Row → List (Nat × Row)
  anchor_ok : ∀ row ∈ anchor, List.Forall₂ OfColumn types row
  derive_ok : ∀ working, ∀ d ∈ derive working,
    d.1 < working.length ∧ List.Forall₂ OfColumn types d.2

/-- The rows of the recursive term (`with_carried_columns`): each with its parent's added columns behind
    its own. -/
def Terms.carried {types : List ColType} (terms : Terms types) (n : Nat) (working : List Row) :
    List Row :=
  (terms.derive working).map fun d => d.2 ++ (working.getD d.1 []).drop n

/-- The rows kept behind those already there: all under `UNION ALL`, else those equal to none. -/
def keepRows {α : Type} (row : α → Row) (unionAll : Bool) : List α → List α → List α
  | _, [] => []
  | seen, a :: as =>
    if unionAll || !seen.any fun b => valuesEq (row a) (row b) then
      a :: keepRows row unionAll (seen ++ [a]) as
    else keepRows row unionAll seen as

attribute [grind =] keepRows

/-- The loop of `materialize_recursive`; `none` when the fuel ends before it does. -/
def recursiveLoop {types : List ColType} (plan : SearchCyclePlan) (terms : Terms types)
    (unionAll : Bool) : Nat → (result working : List Row) → Option (Except CteError (List Row))
  | 0, _, _ => none
  | fuel + 1, result, working =>
    if working.isEmpty then some (.ok result)
    else
      match searchCycleRows plan plan.recursive plan.filter (terms.carried plan.userCols working) with
      | .error e => some (.error e)
      | .ok rows =>
        recursiveLoop plan terms unionAll fuel (result ++ keepRows id unionAll result rows)
          (keepRows id unionAll result rows)

attribute [grind =] recursiveLoop

/-- `materialize_recursive`. -/
def materializeRecursive {types : List ColType} (plan : SearchCyclePlan) (terms : Terms types)
    (unionAll : Bool) (fuel : Nat) : Option (Except CteError (List Row)) :=
  match searchCycleRows plan plan.anchor none terms.anchor with
  | .error e => some (.error e)
  | .ok rows =>
    recursiveLoop plan terms unionAll fuel (keepRows id unionAll [] rows)
      (keepRows id unionAll [] rows)

end Jed.Cte
