import Jed.Lib.Positions
import Jed.Window.Frame

/-!
# Aggregates of a window

An aggregate over the frames of a partition (`executor/window.rs:736-938`): one running pass for the
default frame, a new fold for each row, or an accumulator carried from row to row.
-/

namespace Jed.Window

open Positions

/-- An aggregate other than a count: an accumulator to start from, one value folded in, and the result. -/
structure Kernel (σ : Type) where
  start : σ
  fold : σ → Value → Except Failure σ
  finalize : σ → Except Failure Value

/-- `AggPlan`. -/
inductive AggPlan (σ : Type) where
  | countStar
  | count
  | other (kernel : Kernel σ)

/-- `Acc`. -/
inductive Acc (σ : Type) where
  | countStar (n : Int)
  | count (n : Int)
  | other (kernel : Kernel σ) (state : σ)

variable {σ : Type}

/-- `Acc::with_context`. -/
def Acc.new : AggPlan σ → Acc σ
  | .countStar => .countStar 0
  | .count => .count 0
  | .other kernel => .other kernel kernel.start

/-- `Acc::fold`. -/
def Acc.fold (value : Value) : Acc σ → Except Failure (Acc σ)
  | .countStar n => .ok (.countStar (n + 1))
  | .count n =>
    match value with
    | .null => .ok (.count n)
    | _ => .ok (.count (n + 1))
  | .other kernel state => (kernel.fold state value).map (.other kernel)

/-- `Acc::unfold`: only a count is folded back. -/
def Acc.unfold (value : Value) : Acc σ → Except Failure (Acc σ)
  | .countStar n => .ok (.countStar (n - 1))
  | .count n =>
    match value with
    | .null => .ok (.count n)
    | _ => .ok (.count (n - 1))
  | .other _ _ => .error .panic

/-- `Acc::finalize`. -/
def Acc.finalize : Acc σ → Except Failure Value
  | .countStar n | .count n => .ok (.int n)
  | .other kernel state => kernel.finalize state

/-- `removable`. -/
def AggPlan.removable : AggPlan σ → Bool
  | .countStar | .count => true
  | .other _ => false

/-- `WindowSpec` of an aggregate: its operand, `FILTER` and frame. -/
structure AggSpec (σ : Type) where
  plan : AggPlan σ
  operand : Option (List Value → Except Failure Value)
  filter : Option (List Value → Except Failure Value)
  frame : Option ResolvedFrame

/-- `FrameExclusion` of the frame. -/
def AggSpec.exclude (spec : AggSpec σ) : FrameExclusion :=
  match spec.frame with
  | some f => f.exclude
  | none => .noOthers

/-- `rows[ordered[k]]`. -/
def rowAt (ordered : List Entry) (k : Nat) : Except Failure (List Value) :=
  match ordered[k]? with
  | some row => .ok row.2
  | none => .error .panic

/-- `Value::is_true`. -/
def isTrue : Value → Bool
  | .bool b => b
  | _ => false

namespace AggSpec

variable (spec : AggSpec σ) (ordered : List Entry)

/-- `opval`. -/
def opval (k : Nat) : Except Failure Value :=
  match spec.operand with
  | some e => do
    let row ← rowAt ordered k
    e row
  | none => .ok .null

/-- `filter_pass`. -/
def filterPass (k : Nat) : Except Failure Bool :=
  match spec.filter with
  | some f => do
    let row ← rowAt ordered k
    let v ← f row
    return isTrue v
  | none => .ok true

/-- `vals`: the operands that are evaluated so far. -/
abbrev Vals : Type := List (Option Value)

/-- `eval_at`. -/
def evalAt (k : Nat) (vals : Vals) : Except Failure (Value × Vals) :=
  match spec.operand with
  | none => .ok (.null, vals)
  | some e =>
    match vals[k]? with
    | none => .error .panic
    | some (some v) => .ok (v, vals)
    | some none => do
      let row ← rowAt ordered k
      let v ← e row
      return (v, vals.set k (some v))

/-- One entering row. -/
def foldAt (state : Acc σ × Vals) (k : Nat) : Except Failure (Acc σ × Vals) := do
  let (v, vals) ← spec.evalAt ordered k state.2
  let acc ← state.1.fold v
  return (acc, vals)

/-- One leaving row. -/
def unfoldAt (state : Acc σ × Vals) (k : Nat) : Except Failure (Acc σ × Vals) := do
  let (v, vals) ← spec.evalAt ordered k state.2
  let acc ← state.1.unfold v
  return (acc, vals)

/-- One row of the frame of `pos`, which may be excluded or filtered out. -/
def foldKept (ctx : FrameCtx) (pos : Nat) (state : Acc σ × Vals) (k : Nat) :
    Except Failure (Acc σ × Vals) :=
  if ctx.isExcluded pos k spec.exclude then .ok state
  else do
    let pass ← spec.filterPass ctx.ordered k
    if pass then spec.foldAt ctx.ordered state k else return state

/-- One row of the running pass, which may be filtered out. -/
def foldRunning (acc : Acc σ) (k : Nat) : Except Failure (Acc σ) := do
  let pass ← spec.filterPass ordered k
  if pass then
    let v ← spec.opval ordered k
    acc.fold v
  else return acc

/-- The running pass over the peer groups. -/
def runningPass (acc : Acc σ) : List (Nat × Nat) → Except Failure (List Value)
  | [] => .ok []
  | (start, finish) :: groups => do
    let acc ← foldRange (spec.foldRunning ordered) acc start finish
    let out ← acc.finalize
    let outs ← runningPass acc groups
    return List.replicate (finish - start) out ++ outs

variable (F : FloatArith) (ctx : FrameCtx)

/-- A new fold for each row, from `vals` on. -/
def refoldPass (vals : Vals) : List Nat → Except Failure (List Value)
  | [] => .ok []
  | pos :: rest => do
    let (lo, hi) ← ctx.bounds F pos spec.frame
    let (acc, vals) ← foldRange (spec.foldKept ctx pos) (Acc.new spec.plan, vals) lo hi
    let out ← acc.finalize
    let outs ← refoldPass vals rest
    return out :: outs

/-- What is carried from row to row. -/
structure Carry (σ : Type) where
  acc : Acc σ
  lo : Nat
  hi : Nat
  vals : Vals

/-- The accumulator moved to the bounds of the next row. -/
def moveTo (c : Carry σ) (lo hi : Nat) : Except Failure (Acc σ × Vals) :=
  if (!spec.plan.removable && decide (c.lo < lo)) || decide (lo < c.lo) || decide (hi < c.hi) then
    foldRange (spec.foldAt ctx.ordered) (Acc.new spec.plan, c.vals) lo hi
  else do
    let state ← foldRange (spec.unfoldAt ctx.ordered) (c.acc, c.vals) c.lo (min lo c.hi)
    foldRange (spec.foldAt ctx.ordered) state (max c.hi lo) hi

/-- The carried accumulator, from `c` on. -/
def slidingPass (c : Carry σ) : List Nat → Except Failure (List Value)
  | [] => .ok []
  | pos :: rest => do
    let (lo, hi) ← ctx.bounds F pos spec.frame
    let (acc, vals) ← spec.moveTo ctx c lo hi
    let out ← acc.finalize
    let outs ← slidingPass ⟨acc, lo, hi, vals⟩ rest
    return out :: outs

/-- The results of a partition in its sorted order. -/
def results : Except Failure (List Value) :=
  match spec.frame with
  | none => spec.runningPass ctx.ordered (Acc.new spec.plan) ctx.groupSpans
  | some _ =>
    if spec.exclude ≠ .noOthers ∨ spec.filter.isSome then
      spec.refoldPass F ctx (List.replicate ctx.np none) (List.range ctx.np)
    else
      spec.slidingPass F ctx ⟨Acc.new spec.plan, 0, 0, List.replicate ctx.np none⟩ (List.range ctx.np)

end AggSpec

end Jed.Window
