import Jed.Access.Expr
import Jed.Compare.Values
import Jed.Key.Collated

/-!
# Filters and predicates

A resolved expression as the prover of implications reads it (`RExpr`, `executor/mod.rs:3900`), and its
value on a row (`executor/eval.rs`): the comparisons, the connectives, the tests for NULL and the
quantified comparisons in full, the other operators by what they do with the results of their operands.
-/

namespace Jed.Implies

open Access (CmpOp Row and3 or3 isTrue arrayOf)
open Key

/-- `ArithOp`. -/
inductive ArithOp where
  | add
  | sub
  | mul
  | div
  | mod
  deriving DecidableEq

/-- The operators that are matched structurally, with what their nodes carry. `φ` names the scalar
    functions and the type modifiers. -/
inductive Op (φ : Type) where
  | scalarFunc (func : φ) (result : ScalarType)
  | coalesce (coerceDecimal : Bool)
  | nullIf (coerceDecimal widenFloat : Bool)
  | greatestLeast (coerceDecimal greatest : Bool) (collation : Option String)
  | arith (op : ArithOp) (result : ScalarType)
  | cast (target : ScalarType) (typmod varcharLen temporal : Option φ)
  | neg (result : ScalarType)
  | casing (upper : Bool)

/-- `RExpr`. `ω` names the operators that are never matched, with the data their nodes carry; `LIKE` and
    the regular expressions are `matches`. A collation is held by its name. -/
inductive RExpr (φ ω : Type) where
  | column (i : Nat)
  | const (v : Value)
  | array (elems : List (RExpr φ ω)) (nested : Bool)
  | and (l r : RExpr φ ω)
  | or (l r : RExpr φ ω)
  | not (e : RExpr φ ω)
  | compare (op : CmpOp) (lhs rhs : RExpr φ ω) (collation : Option String)
  | isNull (operand : RExpr φ ω) (negated : Bool)
  | quantified (op : CmpOp) (all rowWise : Bool) (lhs array : RExpr φ ω)
    (collation : Option String)
  | matches (f : ω) (lhs rhs : RExpr φ ω)
  | node (op : Op φ) (args : List (RExpr φ ω))
  | other (f : ω) (args : List (RExpr φ ω))

/-- `ThreeValued::not`. -/
def notTv : ThreeValued → ThreeValued
  | .true => .false
  | .false => .true
  | .unknown => .unknown

/-- `ThreeValued::or`. -/
def orTv : ThreeValued → ThreeValued → ThreeValued
  | .true, _ => .true
  | _, .true => .true
  | .unknown, _ => .unknown
  | _, .unknown => .unknown
  | _, _ => .false

/-- `not3` (`value.rs:2026-2032`). -/
def not3 : Value → Value
  | .bool b => .bool !b
  | _ => .null

/-- `from3`. -/
def from3 : ThreeValued → Value
  | .true => .bool true
  | .false => .bool false
  | .unknown => .null

/-- `is_lt`, `is_gt`, `is_le`, `is_ge`, `is_eq` and `is_ne` of an order. -/
def holdsOrder (op : CmpOp) (ord : Ordering) : Bool :=
  match op with
  | .eq => ord == .eq
  | .ne => ord != .eq
  | .lt => ord == .lt
  | .gt => ord == .gt
  | .le => ord != .gt
  | .ge => ord != .lt

attribute [grind =] holdsOrder

/-- `row_cmp3` (`store_encode.rs:1390-1399`). -/
def rowCmp3 (op : CmpOp) (x e : Value) : ThreeValued :=
  match op with
  | .eq => x.eq3 e
  | .ne => notTv (x.eq3 e)
  | .lt => x.lt3 e
  | .gt => x.gt3 e
  | .le => orTv (x.lt3 e) (x.eq3 e)
  | .ge => orTv (x.gt3 e) (x.eq3 e)

attribute [grind =] rowCmp3

/-- `collated_cmp` (`resolve_func.rs:7508-7512`). -/
def collatedCmp (coll : Table) (a b : Bytes) : Except Failure Ordering := do
  let ka ← sortKey coll a
  let kb ← sortKey coll b
  return KeyCodes.lexCompare ka kb

/-- The loop of `collated_array_cmp` (`resolve_func.rs:7519-7541`), and `ended` behind it. -/
def collatedElementsCmp (coll : Table) (ended : Ordering) :
    List Value → List Value → Except Failure Ordering
  | .null :: xs, .null :: ys => collatedElementsCmp coll ended xs ys
  | .null :: _, _ :: _ => .ok .gt
  | _ :: _, .null :: _ => .ok .lt
  | .text x :: xs, .text y :: ys => do
    match ← collatedCmp coll x y with
    | .eq => collatedElementsCmp coll ended xs ys
    | ord => return ord
  | _ :: _, _ :: _ => .error .panic
  | _, _ => .ok ended

/-- An ordering of two texts, or of two arrays of texts, under a collation. -/
def collatedOrder (coll : Table) (a b : Value) : Option (Except Failure Ordering) :=
  match a, b with
  | .text x, .text y => some (collatedCmp coll x y)
  | .array xDims xLbounds xs, .array yDims yLbounds ys =>
    some (collatedElementsCmp coll
      (arrayShapeCmp xDims xLbounds xs.length yDims yLbounds ys.length) xs ys)
  | _, _ => none

/-- Whether a comparison orders. -/
def isOrdering : CmpOp → Bool
  | .eq | .ne => false
  | .lt | .gt | .le | .ge => true

/-- The arm `Compare` of `eval` (`eval.rs:618-700`). -/
def evalCompare (op : CmpOp) (collation : Option Table) (a b : Value) : Except Failure Value :=
  match collation with
  | some coll =>
    if isOrdering op then
      match collatedOrder coll a b with
      | some ord => ord.map fun ord => .bool (holdsOrder op ord)
      | none => .ok .null
    else .ok (from3 (rowCmp3 op a b))
  | none => .ok (from3 (rowCmp3 op a b))

/-- `is_null_test` (`value.rs:988-1004`). -/
def isNullTest (v : Value) (negated : Bool) : Bool :=
  match v with
  | .composite fields =>
    fields.all fun f => (match f with | .null => false | _ => true) == negated
  | .null => !negated
  | _ => negated

/-- `quantified_cmp3` (`store_encode.rs:1413-1454`); `eq3` and its like widen a float themselves. -/
def quantifiedCmp3 (op : CmpOp) (x e : Value) : ThreeValued :=
  match x, e with
  | .composite _, .null => .unknown
  | .null, .composite _ => .unknown
  | .composite fields, e => bool3 (holdsOrder op (valueCmp (.composite fields) e))
  | x, .composite fields => bool3 (holdsOrder op (valueCmp x (.composite fields)))
  | x, e => rowCmp3 op x e

/-- One element of `quantified_membership`. -/
def elementCmp3 (op : CmpOp) (rowWise : Bool) (collation : Option Table) (x e : Value) :
    Except Failure ThreeValued :=
  let plain := if rowWise then rowCmp3 op x e else quantifiedCmp3 op x e
  match collation with
  | some coll =>
    if isOrdering op then
      match collatedOrder coll x e with
      | some ord => ord.map fun ord => bool3 (holdsOrder op ord)
      | none => .ok plain
    else .ok plain
  | none => .ok plain

/-- `quantified_membership` (`store_encode.rs:1211-1302`), of the elements left, and whether a NULL was
    among those before. -/
def quantifiedMembership (op : CmpOp) (all rowWise : Bool) (collation : Option Table)
    (x : Value) : List Value → (anyNull : Bool) → Except Failure Value
  | [], anyNull => .ok (if anyNull then .null else .bool all)
  | e :: elements, anyNull => do
    match ← elementCmp3 op rowWise collation x e with
    | .true =>
      if all then quantifiedMembership op all rowWise collation x elements anyNull
      else return .bool true
    | .false =>
      if all then return .bool false
      else quantifiedMembership op all rowWise collation x elements anyNull
    | .unknown => quantifiedMembership op all rowWise collation x elements true

attribute [grind =] quantifiedMembership

/-- `quantified_membership`, of an array. -/
def evalQuantified (op : CmpOp) (all rowWise : Bool) (collation : Option Table)
    (x array : Value) : Except Failure Value :=
  match array with
  | .null => .ok .null
  | .array _ _ elements => quantifiedMembership op all rowWise collation x elements false
  | _ => .error .panic

/-- What evaluation reads besides the row: the operators over the results of their operands (a lazy one
    looks at those it needs), the tables of the collations, the matching of texts, and the stacking of
    arrays. -/
structure Env (φ ω : Type) where
  tables : String → Table
  apply : Op φ → List (Except Failure Value) → Except Failure Value
  other : ω → Row → List (Except Failure Value) → Except Failure Value
  isMatch : ω → Value → Value → Except Failure Value
  buildNested : List Value → Except Failure Value

variable {φ ω : Type} (E : Env φ ω) (row : Row)

mutual

/-- `RExpr::eval`. A FALSE left operand decides AND, a TRUE one OR. -/
def eval : RExpr φ ω → Except Failure Value
  | .column i => .ok (row i)
  | .const v => .ok v
  | .array elems nested => do
    let vals ← (evalAll elems).mapM id
    if nested then E.buildNested vals else return arrayOf vals
  | .and l r => do
    match ← eval l with
    | .bool false => return .bool false
    | lv => return and3 lv (← eval r)
  | .or l r => do
    match ← eval l with
    | .bool true => return .bool true
    | lv => return or3 lv (← eval r)
  | .not e => do return not3 (← eval e)
  | .compare op lhs rhs collation => do
    let a ← eval lhs
    let b ← eval rhs
    evalCompare op (collation.map E.tables) a b
  | .isNull operand negated => do
    let v ← eval operand
    return .bool (isNullTest v negated)
  | .quantified op all rowWise lhs array collation => do
    let lv ← eval lhs
    let av ← eval array
    evalQuantified op all rowWise (collation.map E.tables) lv av
  | .matches f lhs rhs => do
    let subject ← eval lhs
    let pattern ← eval rhs
    match subject, pattern with
    | .null, _ => return .null
    | _, .null => return .null
    | subject, pattern => E.isMatch f subject pattern
  | .node op args => E.apply op (evalAll args)
  | .other f args => E.other f row (evalAll args)

def evalAll : List (RExpr φ ω) → List (Except Failure Value)
  | [] => []
  | e :: es => eval e :: evalAll es

end

/-- `RExpr::eval_filter` (`eval.rs:13-20`). -/
def evalFilter : RExpr φ ω → Except Failure Bool
  | .and l r => do
    if ← evalFilter l then evalFilter r else return false
  | e => do return isTrue (← eval E row e)

end Jed.Implies
