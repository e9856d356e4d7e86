import Jed.Implies.Expr

/-!
# The prover of partial-index predicates

Whether a list of filters implies the predicate of a partial index (`executor/implication.rs`). The
filters are in global columns and the predicate in the columns of its table, which start at `offset`.
-/

namespace Jed.Implies

open Access (CmpOp)
open Key KeyCodes

variable {φ ω : Type} [DecidableEq φ]

/-- Operators `rexpr_eq_shifted` takes for one; the type of the result is not looked at. -/
def sameOp : Op φ → Op φ → Bool
  | .scalarFunc f _, .scalarFunc g _ => f == g
  | .coalesce d, .coalesce e => d == e
  | .nullIf d w, .nullIf e x => d == e && w == x
  | .greatestLeast d g c, .greatestLeast e h k =>
    g == h && d == e && c == k
  | .arith o _, .arith p _ => o == p
  | .cast t none none none, .cast u none none none => t == u
  | .neg _, .neg _ => true
  | .casing u, .casing v => u == v
  | _, _ => false

/-- Constants `rexpr_eq_shifted` takes for one. -/
def sameConst : Value → Value → Bool
  | .int x, .int y => x == y
  | .bool x, .bool y => x == y
  | .text x, .text y => x == y
  | .null, .null => true
  | _, _ => false

section

variable (offset : Nat)

mutual

/-- `rexpr_eq_shifted` (`access_encode.rs:5972-6140`). -/
def rexprEqShifted : RExpr φ ω → RExpr φ ω → Bool
  | .column x, .column y => x == y + offset
  | .const x, .const y => sameConst x y
  | .node f as, .node g bs => sameOp f g && allEqShifted as bs
  | .not a, .not b => rexprEqShifted a b
  | .compare oa la ra ca, .compare ob lb rb cb =>
    oa == ob && (!isOrdering oa || ca == cb) &&
      rexprEqShifted la lb && rexprEqShifted ra rb
  | .and la ra, .and lb rb => rexprEqShifted la lb && rexprEqShifted ra rb
  | .or la ra, .or lb rb => rexprEqShifted la lb && rexprEqShifted ra rb
  | .isNull a na, .isNull b nb => na == nb && rexprEqShifted a b
  | _, _ => false

/-- As many on either side, and equal pairwise. -/
def allEqShifted : List (RExpr φ ω) → List (RExpr φ ω) → Bool
  | [], [] => true
  | a :: as, b :: bs => rexprEqShifted a b && allEqShifted as bs
  | _, _ => false

end

end

/-- `ProverConst`. -/
inductive ProverConst where
  | int (n : Int)
  | text (s : Bytes)
  | decimal (d : Decimal)
  | date (d : Int)
  | timestamp (m : Int)
  | timestamptz (m : Int)
  | bool (b : Bool)
  | uuid (b : Bytes)

/-- `ProverConst::from_value`. -/
def ProverConst.fromValue : Value → Option ProverConst
  | .int n => some (.int n)
  | .text s => some (.text s)
  | .decimal d => some (.decimal d)
  | .date d => some (.date d)
  | .timestamp m => some (.timestamp m)
  | .timestamptz m => some (.timestamptz m)
  | .bool b => some (.bool b)
  | .uuid b => some (.uuid b)
  | _ => none

/-- `ProverConst::from_rexpr`. -/
def ProverConst.fromRExpr : RExpr φ ω → Option ProverConst
  | .const v => fromValue v
  | _ => none

/-- `ProverConst::cmp`. -/
def ProverConst.cmp : ProverConst → ProverConst → Option Ordering
  | .int a, .int b => some (compare a b)
  | .text a, .text b => some (lexCompare a b)
  | .decimal a, .decimal b => some (a.cmpValue b)
  | .date a, .date b => some (compare a b)
  | .timestamp a, .timestamp b => some (compare a b)
  | .timestamptz a, .timestamptz b => some (compare a b)
  | .bool a, .bool b => some (compare a b)
  | .uuid a, .uuid b => some (lexCompare a b)
  | _, _ => none

/-- `Premise`. -/
structure Premise (φ ω : Type) where
  operand : RExpr φ ω
  op : CmpOp
  value : ProverConst
  cOrder : Bool

/-- `flip_cmp`. -/
def flipCmp : CmpOp → CmpOp
  | .lt => .gt
  | .le => .ge
  | .gt => .lt
  | .ge => .le
  | .eq => .eq
  | .ne => .ne

/-- `comparison_atom` (`implication.rs:137-155`). -/
def comparisonAtom : RExpr φ ω → Option (Premise φ ω)
  | .compare op lhs rhs collation =>
    match ProverConst.fromRExpr rhs with
    | some c => some ⟨lhs, op, c, collation.isNone⟩
    | none => (ProverConst.fromRExpr lhs).map fun c => ⟨rhs, flipCmp op, c, collation.isNone⟩
  | _ => none

/-- `comparison_implies` (`implication.rs:161-185`). -/
def comparisonImplies (op1 op2 : CmpOp) (ord : Ordering) : Bool :=
  match op1 with
  | .eq =>
    match op2 with
    | .eq => ord == .eq
    | .ne => ord != .eq
    | .lt => ord == .lt
    | .le => ord != .gt
    | .gt => ord == .gt
    | .ge => ord != .lt
  | .lt => (op2 == .lt || op2 == .le || op2 == .ne) && ord != .gt
  | .le =>
    match op2 with
    | .lt | .ne => ord == .lt
    | .le => ord != .gt
    | _ => false
  | .gt => (op2 == .gt || op2 == .ge || op2 == .ne) && ord != .lt
  | .ge =>
    match op2 with
    | .gt | .ne => ord == .gt
    | .ge => ord != .lt
    | _ => false
  | .ne => op2 == .ne && ord == .eq

/-- The elements of a constant array, a NULL as `none`; `none` when one of them is no constant of the
    prover. -/
def proverConsts : List Value → Option (List (Option ProverConst))
  | [] => some []
  | .null :: vs => (proverConsts vs).map (none :: ·)
  | v :: vs => do
    let c ← ProverConst.fromValue v
    let cs ← proverConsts vs
    return some c :: cs

/-- The values of a list of constants. -/
def constValues : List (RExpr φ ω) → Option (List Value)
  | [] => some []
  | .const v :: es => (constValues es).map (v :: ·)
  | _ :: _ => none

/-- `IMPLICATION_MAX_ARRAY`. -/
def implicationMaxArray : Nat := 100

/-- `any_array_premise` (`implication.rs:314-359`). -/
def anyArrayPremise : RExpr φ ω → Option (RExpr φ ω × List (Option ProverConst) × Bool)
  | .quantified .eq false false lhs (.const (.array _ _ elements)) collation =>
    if elements.length > implicationMaxArray then none
    else (proverConsts elements).map fun elems => (lhs, elems, collation.isNone)
  | .quantified .eq false false lhs (.array elems false) collation =>
    if elems.length > implicationMaxArray then none
    else do
      let values ← constValues elems
      let elems ← proverConsts values
      return (lhs, elems, collation.isNone)
  | _ => none

/-- A computation of the prover: the steps left before it, its answer, and the steps left behind it. -/
abbrev Prover := Nat → Bool × Nat

namespace Prover

/-- An answer without a step. -/
def answer (b : Bool) : Prover := fun steps => (b, steps)

/-- `tick` before a procedure. -/
def ticked (p : Prover) : Prover
  | 0 => (false, 0)
  | steps + 1 => p steps

/-- `&&`. -/
def both (p q : Prover) : Prover := fun steps =>
  match p steps with
  | (true, steps) => q steps
  | (false, steps) => (false, steps)

/-- `||`. -/
def either (p q : Prover) : Prover := fun steps =>
  match p steps with
  | (true, steps) => (true, steps)
  | (false, steps) => q steps

/-- The computation answers yes at some number of steps. -/
def Succeeds (p : Prover) : Prop := ∃ steps, (p steps).1 = true

end Prover

open Prover

section

variable (offset : Nat)

/-- `atom_implies` behind its first arms: a comparison from a comparison. -/
def comparisonArm (premise : Premise φ ω) (p : RExpr φ ω) : Prover :=
  match comparisonAtom p with
  | none => answer false
  | some atom =>
    if !rexprEqShifted offset premise.operand atom.operand then answer false
    else if (isOrdering premise.op || isOrdering atom.op) && !(premise.cOrder && atom.cOrder) then
      answer false
    else
      match premise.value.cmp atom.value with
      | some ord => answer (comparisonImplies premise.op atom.op ord)
      | none => answer false

/-- `atom_implies` (`implication.rs:275-307`). -/
def atomImplies (premise : Premise φ ω) (p : RExpr φ ω) : Prover := ticked <|
  match p with
  | .and a b => both (atomImplies premise a) (atomImplies premise b)
  | .or a b => either (atomImplies premise a) (atomImplies premise b)
  | .isNull operand true => answer (rexprEqShifted offset premise.operand operand)
  | p => comparisonArm offset premise p

/-- The loop of `clause_implies` over the elements of an array. -/
def elementsImply (operand : RExpr φ ω) (cOrder : Bool) (p : RExpr φ ω) :
    List (Option ProverConst) → (any : Bool) → Prover
  | [], any => answer any
  | none :: elems, any => elementsImply operand cOrder p elems any
  | some value :: elems, _ =>
    both (atomImplies offset ⟨operand, .eq, value, cOrder⟩ p) (elementsImply operand cOrder p elems true)

/-- `clause_implies` behind its first arms, of a clause that is neither OR nor AND. -/
def leafImplies (w p : RExpr φ ω) (orArm : Prover) : Prover :=
  match anyArrayPremise w with
  | some (operand, elems, cOrder) => elementsImply offset operand cOrder p elems false
  | none =>
    either orArm <|
      match comparisonAtom w with
      | some premise => atomImplies offset premise p
      | none => answer false

/-- `clause_implies` (`implication.rs:221-272`). -/
def clauseImplies (w p : RExpr φ ω) : Prover := ticked <|
  if rexprEqShifted offset w p then answer true
  else
    match p with
    | .and a b => both (clauseImplies w a) (clauseImplies w b)
    | p =>
      match w with
      | .or a b => both (clauseImplies a p) (clauseImplies b p)
      | .and a b => either (clauseImplies a p) (clauseImplies b p)
      | w =>
        leafImplies offset w p <|
          match p with
          | .or a b => either (clauseImplies w a) (clauseImplies w b)
          | _ => answer false
termination_by sizeOf w + sizeOf p

/-- The loop of `implied_by_conjuncts`. -/
def someClauseImplies (p : RExpr φ ω) : List (RExpr φ ω) → Prover
  | [] => answer false
  | w :: ws => either (clauseImplies offset w p) (someClauseImplies p ws)

/-- `implied_by_conjuncts` (`implication.rs:202-218`). -/
def impliedByConjuncts (ws : List (RExpr φ ω)) (p : RExpr φ ω) : Prover := ticked <|
  match p with
  | .and a b => both (impliedByConjuncts ws a) (impliedByConjuncts ws b)
  | p =>
    either (someClauseImplies offset p ws) <|
      match p with
      | .or a b => either (impliedByConjuncts ws a) (impliedByConjuncts ws b)
      | _ => answer false

/-- `flatten_and`. -/
def flattenAnd : RExpr φ ω → List (RExpr φ ω)
  | .and l r => flattenAnd l ++ flattenAnd r
  | e => [e]

/-- `IMPLICATION_STEP_BUDGET`. -/
def implicationStepBudget : Nat := 10000

/-- `filters_imply_predicate` (`implication.rs:19-29`). -/
def filtersImplyPredicate (filters : List (RExpr φ ω)) (pred : RExpr φ ω) : Bool :=
  (impliedByConjuncts offset (filters.flatMap flattenAnd) pred implicationStepBudget).1

end

/-- A bare column. -/
def isBare : RExpr φ ω → Bool
  | .column _ => true
  | _ => false

/-- `predicate_rejects_null` (`implication.rs:38-56`). -/
def predicateRejectsNull : RExpr φ ω → Bool
  | .and a b => predicateRejectsNull a || predicateRejectsNull b
  | .or a b => predicateRejectsNull a && predicateRejectsNull b
  | .compare _ lhs rhs _ => isBare lhs || isBare rhs
  | .isNull operand true => isBare operand
  | .column _ => true
  | .not inner => isBare inner
  | .quantified _ false _ lhs _ _ => isBare lhs
  | .matches _ lhs _ => isBare lhs
  | _ => false

end Jed.Implies
