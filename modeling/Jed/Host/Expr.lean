import Jed.Lib.Lockstep

/-!
# Host functions in expressions

The registry of host functions (`extension.rs:40-300`) and the evaluation of the expressions that call
them (`eval.rs:30-55`, `:2010-2075`). Values, errors and the meter are parameters; a node that is no
host call is the strategy by which it evaluates its operands.
-/

namespace Jed.Host

open Runs

/-- What the executor asks of values. -/
structure Values (V : Type) where
  null : V
  isNull : V → Bool
  isTrue : V → Bool
  /-- An integer as a decimal of scale 0, any other value as it is. -/
  asDecimal : V → V
  /-- An `f32` as an `f64`, any other value as it is. -/
  asFloat64 : V → V
  asDecimal_asDecimal : ∀ v, asDecimal (asDecimal v) = asDecimal v
  asFloat64_asFloat64 : ∀ v, asFloat64 (asFloat64 v) = asFloat64 v

/-- A stored value, or a pointer to one that is not read yet. -/
inductive Cell (V : Type) where
  | fetched (v : V)
  | unfetched (pointer : Nat)

abbrev Row (V : Type) := Nat → Cell V

inductive Volatility where
  | immutable
  | stable
  | volatile
  deriving DecidableEq

/-- The types of arguments, as far as they are coerced. -/
inductive ArgType where
  | decimal
  | float64
  | other

/-- `Kernel`: a batch kernel appends results and then ends well or with an error. -/
inductive Kernel (V ε : Type) where
  | row (kernel : List V → Except ε V)
  | batch (kernel : List (List V) → List V × Except ε Unit)

/-- `HostFunction`, as far as calls read it. -/
structure HostFunction (V ε : Type) where
  argTypes : List ArgType
  volatility : Volatility
  cost : Int
  kernel : Kernel V ε
  /-- `shape_error`. -/
  shapeError : Nat → Nat → ε

variable {V μ ε : Type}

/-- `batchable`. -/
def HostFunction.batchable (hf : HostFunction V ε) : Bool :=
  match hf.kernel with
  | .row _ => false
  | .batch _ => decide (hf.volatility ≠ .volatile)

/-- `coerce_arg`. -/
def HostFunction.coerceArg (hf : HostFunction V ε) (vs : Values V) (i : Nat) (v : V) : V :=
  match hf.argTypes[i]? with
  | some .decimal => vs.asDecimal v
  | some .float64 => vs.asFloat64 v
  | _ => v

/-- The rows of columns. -/
def rowsOf (cols : List (List V)) (n : Nat) : List (List V) :=
  (List.range n).map fun i => cols.filterMap (·[i]?)

/-- A kernel called for each row until it fails. -/
def eachRow (kernel : List V → Except ε V) : List (List V) → List V × Except ε Unit
  | [] => ([], .ok ())
  | row :: rows =>
    match kernel row with
    | .error e => ([], .error e)
    | .ok v => (v :: (eachRow kernel rows).1, (eachRow kernel rows).2)

attribute [grind =] eachRow

/-- `call_batch_prefix`. -/
def HostFunction.callBatchPrefix (hf : HostFunction V ε) (vs : Values V) (cols : List (List V))
    (n : Nat) : List V × Option ε :=
  let cols := cols.mapIdx fun i col => col.map (hf.coerceArg vs i)
  let (out, res) :=
    match hf.kernel with
    | .batch kernel => kernel cols
    | .row kernel => eachRow kernel (rowsOf cols n)
  if out.length > n then ([], some (hf.shapeError n out.length))
  else
    match res with
    | .error e => if out.length = n then ([], some (hf.shapeError n out.length)) else (out, some e)
    | .ok () => if out.length < n then (out, some (hf.shapeError n out.length)) else (out, none)

/-- `call_one`. -/
def HostFunction.callOne (hf : HostFunction V ε) (vs : Values V) (args : List V) : Except ε V :=
  let args := args.mapIdx fun i v => hf.coerceArg vs i v
  match hf.kernel with
  | .row kernel => kernel args
  | .batch _ =>
    match hf.callBatchPrefix vs (args.map fun v => [v]) 1 with
    | (v :: _, _) => .ok v
    | ([], some e) => .error e
    -- A batch of one row yields one outcome.
    | ([], none) => .error (hf.shapeError 1 0)

/-- The nodes that are no leaf and no host call, as far as the batches tell them apart. -/
inductive OpKind where
  | cast
  | neg
  | isNull
  | not
  | arith
  | compare
  | and
  | other
  deriving DecidableEq

/-- `RExpr`: a call node carries its address. -/
inductive RExpr (V : Type) where
  | column (i : Nat)
  | outerColumn (level index : Nat)
  | param (i : Nat)
  | const (v : V)
  | hostFunc (node id result : Nat) (args : List (RExpr V))
  | op (kind : OpKind) (tag : Nat) (args : List (RExpr V))

/-- How a node evaluates: it gives a result, works on the meter, or evaluates an operand, and goes on
    by what came of it. -/
inductive Strategy (V μ ε : Type) where
  | done (r : Except ε V)
  | meter (work : μ → Except ε Unit × μ) (next : Except ε Unit → Strategy V μ ε)
  | operand (i : Nat) (next : Except ε V → Strategy V μ ε)

/-- `EvalEnv`, the registry and the meter, batches apart. -/
structure World (V μ ε : Type) where
  values : Values V
  functions : Nat → HostFunction V ε
  params : Nat → V
  outer : Nat → Nat → Cell V
  /-- `resolve_unfetched_self`. -/
  resolve : Nat → Except ε V
  charge : Int → μ → μ
  guard : μ → Except ε Unit
  headroom : μ → Option Int
  /-- Whether a result has the declared type and is in its range. -/
  checkResult : Nat → V → Except ε Unit
  strategy : OpKind → Nat → Strategy V μ ε
  andCost : Int

/-- The value of a cell. -/
def World.read (w : World V μ ε) : Cell V → Except ε V
  | .fetched v => .ok v
  | .unfetched pointer => w.resolve pointer

/-- The value of a leaf. -/
def World.leafValue (w : World V μ ε) (row : Row V) : RExpr V → Option (Except ε V)
  | .column i => some (w.read (row i))
  | .outerColumn level index => some (w.read (w.outer level index))
  | .param i => some (.ok (w.params i))
  | .const v => some (.ok v)
  | _ => none

/-- `Slot`. -/
structure Slot (V ε : Type) where
  node : Nat
  id : Nat
  args : List (RExpr V)
  base : Nat
  valid : Nat
  values : List (Option V)
  error : Option (Nat × ε)

/-- `HostBatch`. -/
structure HostBatch (V ε : Type) where
  row : Nat
  slots : List (Slot V ε)

/-- The outcome a slot holds for a row, moved out. -/
def Slot.take (s : Slot V ε) (row : Nat) : Option (Except ε V) × Slot V ε :=
  if row < s.base then (none, s)
  else
    let i := row - s.base
    match s.values[i]? with
    | none => (none, s)
    | some (some v) => (some (.ok v), { s with values := s.values.set i none })
    | some none =>
      match s.error with
      | some (failed, e) => if failed = i then (some (.error e), { s with error := none }) else (none, s)
      | none => (none, s)

/-- The first slot of a node, and the slots after the outcome is taken from it. -/
def takeFrom (node row : Nat) : List (Slot V ε) → Option (Except ε V) × List (Slot V ε)
  | [] => (none, [])
  | s :: rest =>
    if s.node = node then ((s.take row).1, (s.take row).2 :: rest)
    else ((takeFrom node row rest).1, s :: (takeFrom node row rest).2)

/-- `take`. -/
def HostBatch.take (b : HostBatch V ε) (node : Nat) : Option (Except ε V) × HostBatch V ε :=
  ((takeFrom node b.row b.slots).1, { b with slots := (takeFrom node b.row b.slots).2 })

/-- The meter, and the batch installed, if any. -/
abbrev EvalState (V μ ε : Type) := μ × Option (HostBatch V ε)

abbrev EvalM (V μ ε α : Type) := Run (EvalState V μ ε) ε α

def onMeter (work : μ → Except ε Unit × μ) : EvalM V μ ε Unit := fun s =>
  ((work s.1).1, (work s.1).2, s.2)

/-- `guard`, and `checkpoint` where nothing cancels. -/
def World.guardM (w : World V μ ε) : EvalM V μ ε Unit := onMeter fun m => (w.guard m, m)

def World.chargeM (w : World V μ ε) (units : Int) : EvalM V μ ε Unit :=
  onMeter fun m => (.ok (), w.charge units m)

/-- `env.host_batch.and_then(|b| b.take(self))`. -/
def takeM (node : Nat) : EvalM V μ ε (Option (Except ε V)) := fun s =>
  match s.2 with
  | none => (.ok none, s)
  | some b => (.ok (b.take node).1, s.1, some (b.take node).2)

/-- The arguments in turn, until one is NULL. -/
def strictArgs (vs : Values V) : List (EvalM V μ ε V) → EvalM V μ ε (Option (List V))
  | [] => pure (some [])
  | x :: xs => do
    let v ← x
    if vs.isNull v then pure none
    else
      let rest ← strictArgs vs xs
      pure (rest.map (v :: ·))

/-- A strategy over the evaluations of the operands; none asks for an operand that the node lacks. -/
def Strategy.run (vs : Values V) (operands : List (EvalM V μ ε V)) : Strategy V μ ε → EvalM V μ ε V
  | .done r => Run.ofExcept r
  | .meter work next => do
    let r ← (onMeter work).observe
    (next r).run vs operands
  | .operand i next => do
    let r ← (operands[i]?.getD (pure vs.null)).observe
    (next r).run vs operands

/-- The outcome of a call of its own arguments, `none` for a NULL among them. -/
def World.ownOutcome (w : World V μ ε) (id : Nat) (args : List (EvalM V μ ε V)) :
    EvalM V μ ε (Option V) := do
  match ← strictArgs w.values args with
  | none => pure none
  | some vals => do
    let v ← Run.ofExcept ((w.functions id).callOne w.values vals)
    pure (some v)

/-- The outcome of a call, prefetched or not. -/
def World.outcome (w : World V μ ε) (node id : Nat) (args : List (EvalM V μ ε V)) :
    EvalM V μ ε (Option V) := do
  match ← takeM node with
  | some outcome => do
    let v ← Run.ofExcept outcome
    pure (some v)
  | none => w.ownOutcome id args

mutual

/-- `eval`. -/
def World.eval (w : World V μ ε) (row : Row V) : RExpr V → EvalM V μ ε V
  | .column i => do
    w.guardM
    Run.ofExcept (w.read (row i))
  | .outerColumn level index => do
    w.guardM
    Run.ofExcept (w.read (w.outer level index))
  | .param i => do
    w.guardM
    pure (w.params i)
  | .const v => do
    w.guardM
    pure v
  | .hostFunc node id result args => do
    w.guardM
    w.chargeM (w.functions id).cost
    w.guardM
    match ← w.outcome node id (w.evals row args) with
    | none => pure w.values.null
    | some out => do
      Run.ofExcept (w.checkResult result out)
      pure out
  | .op kind tag args => do
    w.guardM
    (w.strategy kind tag).run w.values (w.evals row args)

def World.evals (w : World V μ ε) (row : Row V) : List (RExpr V) → List (EvalM V μ ε V)
  | [] => []
  | e :: es => w.eval row e :: w.evals row es

end

/-- `eval_filter`. -/
def World.evalFilter (w : World V μ ε) (row : Row V) : RExpr V → EvalM V μ ε Bool
  | .op .and _ [l, r] => do
    w.guardM
    w.chargeM w.andCost
    if ← w.evalFilter row l then w.evalFilter row r else pure false
  | e => do
    let v ← w.eval row e
    pure (w.values.isTrue v)

/-- The items of a projection. -/
def World.evalAll (w : World V μ ε) (row : Row V) : List (RExpr V) → EvalM V μ ε (List V)
  | [] => pure []
  | e :: es => do
    let v ← w.eval row e
    let vs ← w.evalAll row es
    pure (v :: vs)

end Jed.Host
