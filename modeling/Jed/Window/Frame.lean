import Jed.Lib.Groups
import Jed.Sorts.Sort
import Jed.Value.DecimalSum

/-!
# Window frames

The peer groups of a sorted partition, and the frame of each row (`executor/window.rs:70-435`): row
offsets, peer-group offsets, or offsets of the one key.
-/

namespace Jed.Window

open Key Sorts

/-- Addition and subtraction of `f64`, and the widening of an `f32`. -/
structure FloatArith where
  widen : BitVec binary32.width → BitVec binary64.width
  add : BitVec binary64.width → BitVec binary64.width → BitVec binary64.width
  sub : BitVec binary64.width → BitVec binary64.width → BitVec binary64.width

/-- `FrameMode`. -/
inductive FrameMode where
  | rows
  | range
  | groups
  deriving DecidableEq

/-- `FrameExclusion`. -/
inductive FrameExclusion where
  | noOthers
  | currentRow
  | group
  | ties
  deriving DecidableEq

/-- `ResolvedBound`. -/
inductive ResolvedBound where
  | unboundedPreceding
  | preceding (off : Value)
  | currentRow
  | following (off : Value)
  | unboundedFollowing

/-- `ResolvedFrame`. -/
structure ResolvedFrame where
  mode : FrameMode
  start : ResolvedBound
  finish : ResolvedBound
  exclude : FrameExclusion

/-- Arithmetic in `i128`, which panics where it overflows. -/
def wide (x : Int) : Except Failure Int :=
  if -2 ^ 127 ≤ x ∧ x < 2 ^ 127 then .ok x else .error .panic

/-- `offset_count`. -/
def offsetCount : Value → Except Failure Int
  | .int k => .ok k
  | _ => .error .panic

section

variable (F : FloatArith)

/-- A float key, widened. -/
def widened : Value → Except Failure (BitVec binary64.width)
  | .float32 x => .ok (F.widen x)
  | .float64 x => .ok x
  | _ => .error .panic

/-- `range_v_vs_bound` (`window.rs:89-130`): the value against `cur` with the offset taken off or added. -/
def rangeVVsBound (v cur off : Value) (subtract : Bool) : Except Failure Ordering :=
  match cur, off with
  | .int c, .int o =>
    match v with
    | .int x => (wide (if subtract then c - o else c + o)).map fun b => compare x b
    | _ => .error .panic
  | .decimal c, .decimal o =>
    (if subtract then c.sub o else c.add o).map fun b => valueCmp v (.decimal b)
  | .float32 _, .float64 o | .float64 _, .float64 o => do
    let c ← widened F cur
    let x ← widened F v
    return binary64.totalCmp x (if subtract then F.sub c o else F.add c o)
  | _, _ => .error .panic

end

/-- A row of the window buffer, with its sort keys. -/
abbrev Entry : Type := List (Option Bytes) × List Value

/-- `cmp_window_rows`. -/
def cmpWindowRows (order : List SortKey) (a b : Entry) : Ordering :=
  cmpDecoratedParts a.2 b.2 order a.1 b.1

/-- `FrameCtx`, its three tables over the positions read off the spans. -/
structure FrameCtx where
  ordered : List Entry
  order : List SortKey
  groupSpans : List (Nat × Nat)

namespace FrameCtx

/-- `FrameCtx::new`. -/
def new (ordered : List Entry) (order : List SortKey) : FrameCtx :=
  ⟨ordered, order, Groups.spans (cmpWindowRows order) ordered⟩

variable (ctx : FrameCtx)

def np : Nat := ctx.ordered.length

def peerStart (pos : Nat) : Nat := (Groups.locate ctx.groupSpans pos).2.1

def peerEnd (pos : Nat) : Nat := (Groups.locate ctx.groupSpans pos).2.2

def groupOf (pos : Nat) : Nat := (Groups.locate ctx.groupSpans pos).1

/-- `FrameCtx::is_excluded`. -/
def isExcluded (pos k : Nat) (exclude : FrameExclusion) : Bool :=
  match exclude with
  | .noOthers => false
  | .currentRow => k == pos
  | .group => decide (ctx.peerStart pos ≤ k ∧ k < ctx.peerEnd pos)
  | .ties => k != pos && decide (ctx.peerStart pos ≤ k ∧ k < ctx.peerEnd pos)

/-- `clamp(0, n)`, and then `as usize`. -/
def clamped (n : Nat) (x : Int) : Nat := (max 0 (min x n)).toNat

/-- The start of `rows_bounds`, before it is clamped. -/
def rowsLo (p n : Int) : ResolvedBound → Except Failure Int
  | .unboundedPreceding => .ok 0
  | .preceding k => do
    let k ← offsetCount k
    wide (p - k)
  | .currentRow => .ok p
  | .following k => do
    let k ← offsetCount k
    wide (p + k)
  | .unboundedFollowing => .ok n

/-- The end of `rows_bounds`, before it is clamped. -/
def rowsHi (p n : Int) : ResolvedBound → Except Failure Int
  | .unboundedPreceding => .ok 0
  | .preceding k => do
    let k ← offsetCount k
    let x ← wide (p - k)
    wide (x + 1)
  | .currentRow => wide (p + 1)
  | .following k => do
    let k ← offsetCount k
    let x ← wide (p + k)
    wide (x + 1)
  | .unboundedFollowing => .ok n

/-- `rows_bounds` (`window.rs:226-246`). -/
def rowsBounds (pos : Nat) (f : ResolvedFrame) : Except Failure (Nat × Nat) := do
  let lo ← rowsLo pos ctx.np f.start
  let hi ← rowsHi pos ctx.np f.finish
  return (clamped ctx.np lo, max (clamped ctx.np hi) (clamped ctx.np lo))

/-- `start_at` of `groups_bounds`. -/
def startAt (j : Int) : Nat :=
  if j < 0 then 0
  else match ctx.groupSpans[j.toNat]? with
    | some span => span.1
    | none => ctx.np

/-- `end_at` of `groups_bounds`. -/
def endAt (j : Int) : Nat :=
  if j < 0 then 0
  else match ctx.groupSpans[j.toNat]? with
    | some span => span.2
    | none => ctx.np

/-- The start of `groups_bounds`. -/
def groupsLo (cg : Int) : ResolvedBound → Except Failure Nat
  | .unboundedPreceding => .ok 0
  | .preceding k => do
    let g ← offsetCount k
    let j ← wide (cg - g)
    return ctx.startAt j
  | .currentRow => .ok (ctx.startAt cg)
  | .following k => do
    let g ← offsetCount k
    let j ← wide (cg + g)
    return ctx.startAt j
  | .unboundedFollowing => .ok ctx.np

/-- The end of `groups_bounds`. -/
def groupsHi (cg : Int) : ResolvedBound → Except Failure Nat
  | .unboundedPreceding => .ok 0
  | .preceding k => do
    let g ← offsetCount k
    let j ← wide (cg - g)
    return ctx.endAt j
  | .currentRow => .ok (ctx.endAt cg)
  | .following k => do
    let g ← offsetCount k
    let j ← wide (cg + g)
    return ctx.endAt j
  | .unboundedFollowing => .ok ctx.np

/-- `groups_bounds` (`window.rs:251-288`). -/
def groupsBounds (pos : Nat) (f : ResolvedFrame) : Except Failure (Nat × Nat) := do
  let lo ← ctx.groupsLo (ctx.groupOf pos) f.start
  let hi ← ctx.groupsHi (ctx.groupOf pos) f.finish
  return (lo, max hi lo)

end FrameCtx

section

variable (F : FloatArith)

/-- The loop of `range_start`, from position `i` on. -/
def rangeStartFrom (key : SortKey) (cur off : Value) (subtract : Bool) (i : Nat) :
    List Entry → Except Failure Nat
  | [] => .ok i
  | row :: rows =>
    match slotValue row.2 key with
    | .null =>
      if key.nullsFirst then rangeStartFrom key cur off subtract (i + 1) rows else .ok i
    | v => do
      let ord ← rangeVVsBound F v cur off subtract
      if (if key.descending then ord != .gt else ord != .lt) then return i
      else rangeStartFrom key cur off subtract (i + 1) rows

/-- The loop of `range_end`, from position `i` on, `hi` being the end so far. -/
def rangeEndFrom (key : SortKey) (cur off : Value) (subtract : Bool) (hi i : Nat) :
    List Entry → Except Failure Nat
  | [] => .ok hi
  | row :: rows =>
    match slotValue row.2 key with
    | .null =>
      if key.nullsFirst then rangeEndFrom key cur off subtract (i + 1) (i + 1) rows else .ok hi
    | v => do
      let ord ← rangeVVsBound F v cur off subtract
      if (if key.descending then ord != .lt else ord != .gt) then
        rangeEndFrom key cur off subtract (i + 1) (i + 1) rows
      else return hi

namespace FrameCtx

variable (ctx : FrameCtx)

/-- `range_start` (`window.rs:363-393`). -/
def rangeStart (key : SortKey) (cur off : Value) (isPreceding : Bool) : Except Failure Nat :=
  rangeStartFrom F key cur off (isPreceding != key.descending) 0 ctx.ordered

/-- `range_end` (`window.rs:402-434`). -/
def rangeEnd (key : SortKey) (cur off : Value) (isPreceding : Bool) (lo : Nat) : Except Failure Nat :=
  rangeEndFrom F key cur off (isPreceding != key.descending) lo lo (ctx.ordered.drop lo)

/-- Whether a bound has an offset. -/
def hasOffset : ResolvedBound → Bool
  | .preceding _ | .following _ => true
  | _ => false

/-- The start of a `RANGE` frame that has no offset to apply. -/
def edgeLo (pos : Nat) : ResolvedBound → Nat
  | .unboundedPreceding => 0
  | _ => ctx.peerStart pos

/-- The end of a `RANGE` frame that has no offset to apply. -/
def edgeHi (pos : Nat) : ResolvedBound → Nat
  | .unboundedFollowing => ctx.np
  | _ => ctx.peerEnd pos

/-- The bounds of a `RANGE` frame that has no offset to apply. -/
def edgeBounds (pos : Nat) (f : ResolvedFrame) : Nat × Nat :=
  (ctx.edgeLo pos f.start, max (ctx.edgeHi pos f.finish) (ctx.edgeLo pos f.start))

/-- The start of `range_bounds`, of a row whose key is `cur`. -/
def rangeLo (key : SortKey) (cur : Value) (pos : Nat) : ResolvedBound → Except Failure Nat
  | .unboundedPreceding => .ok 0
  | .currentRow => .ok (ctx.peerStart pos)
  | .preceding off => ctx.rangeStart F key cur off true
  | .following off => ctx.rangeStart F key cur off false
  | .unboundedFollowing => .ok ctx.np

/-- The end of `range_bounds`, of a row whose key is `cur`. -/
def rangeHi (key : SortKey) (cur : Value) (pos lo : Nat) : ResolvedBound → Except Failure Nat
  | .unboundedFollowing => .ok ctx.np
  | .currentRow => .ok (ctx.peerEnd pos)
  | .preceding off => ctx.rangeEnd F key cur off true lo
  | .following off => ctx.rangeEnd F key cur off false lo
  | .unboundedPreceding => .ok 0

/-- `range_bounds` (`window.rs:295-354`). -/
def rangeBounds (pos : Nat) (f : ResolvedFrame) : Except Failure (Nat × Nat) :=
  if !hasOffset f.start && !hasOffset f.finish then .ok (ctx.edgeBounds pos f)
  else
    match ctx.order, ctx.ordered[pos]? with
    | key :: _, some row =>
      match slotValue row.2 key with
      | .null => .ok (ctx.edgeBounds pos f)
      | cur => do
        let lo ← ctx.rangeLo F key cur pos f.start
        let hi ← ctx.rangeHi F key cur pos lo f.finish
        return (lo, max hi lo)
    | _, _ => .error .panic

/-- `FrameCtx::bounds` (`window.rs:191-205`). -/
def bounds (pos : Nat) (frame : Option ResolvedFrame) : Except Failure (Nat × Nat) :=
  match frame with
  | none => .ok (0, ctx.peerEnd pos)
  | some f =>
    match f.mode with
    | .rows => ctx.rowsBounds pos f
    | .groups => ctx.groupsBounds pos f
    | .range => ctx.rangeBounds F pos f

end FrameCtx

end

end Jed.Window
