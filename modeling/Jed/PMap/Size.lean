import Jed.Bytes

/-!
# Node sizes and split points

The size arithmetic the page-backed B+tree runs on: page capacities, the payload a node
serializes to, and the split decision both node kinds share. Nothing here looks at a value.
-/

namespace Jed.PMap

/-- The bytes of an encrypted page's tag. -/
def TAG_LEN : Nat := 16

/-- The bytes an encrypted page reserves beyond its header. -/
def RESERVE : Nat := 40

/-- The page header (`format.rs:165`). -/
def PAGE_HEADER : Nat := 16

/-- `Cap` (`format.rs:180-183`): the payload capacity `c` and the bytes `tag` a bound pointer adds
    to a page index. -/
structure Cap where
  c : Nat
  tag : Nat
  deriving DecidableEq, Repr

/-- `Cap::plain` (`format.rs:187-192`). -/
def Cap.plain (pageSize : Nat) : Cap := ⟨pageSize - PAGE_HEADER, 0⟩

/-- `Cap::encrypted` (`format.rs:195-200`). -/
def Cap.encrypted (pageSize : Nat) : Cap := ⟨pageSize - PAGE_HEADER - RESERVE, TAG_LEN⟩

/-- `Cap::of` (`format.rs:202-208`). -/
def Cap.of (pageSize : Nat) (encrypted : Bool) : Cap :=
  if encrypted then Cap.encrypted pageSize else Cap.plain pageSize

/-- The capacities a database can have, and more: plaintext ones, and tagged ones from 75 bytes on. -/
def Cap.WellFormed (cap : Cap) : Prop := cap.tag = 0 ∨ cap.tag = TAG_LEN ∧ 75 ≤ cap.c

/-- The bytes one page pointer takes (`Cap::ptr`, `format.rs:215-217`). -/
def Cap.ptr (cap : Cap) : Nat := 4 + cap.tag

/-- `page_size_valid` (`format.rs:448-450`): a power of two in `256..=65536`. -/
def pageSizeValid (ps : Nat) : Bool := ps.isPowerOfTwo && 256 ≤ ps && ps ≤ 65536

/-- `LeafShape` (`format.rs:1251-1254`): a leaf's fixed and variable width column counts. -/
structure LeafShape where
  fixed : Nat
  var : Nat
  deriving DecidableEq, Repr

/-- `LeafShape::k`. -/
def LeafShape.k (shape : LeafShape) : Nat := shape.fixed + shape.var

/-- `leaf_overhead` (`format.rs:1282-1284`). -/
def leafOverhead (n : Nat) (shape : LeafShape) : Nat :=
  4 * n + 4 * (shape.k + 1) + shape.fixed * (1 + (n + 7) / 8) + shape.var * (1 + 4 * n)

/-- `RECORD_MAX_RESERVE` (`format.rs:433`). -/
def RECORD_MAX_RESERVE : Nat := 12

/-- `record_max` (`format.rs:1212-1214`), with its saturating subtraction. -/
def recordMax (cap k : Nat) : Nat := (cap - (RECORD_MAX_RESERVE + 16 * k)) / 2

/-- A leaf's payload (`Node::payload`, `pmap.rs:373-379`). -/
def leafPayload (weights : List Nat) (shape : LeafShape) : Nat :=
  weights.sum + leafOverhead weights.length shape

/-- `interior_payload` (`pmap.rs:668-671`). -/
def interiorPayload (cap : Cap) (keys : List Bytes) : Nat :=
  cap.ptr * (keys.length + 1) + 4 * keys.length + (keys.map List.length).sum

/-- `split_point` (`pmap.rs:543-587`). `m_max` is the last `m` of the range before the first one
    whose left half overflows, `m_min` the same from the right. -/
def splitPoint (mLo mHi payload capBytes : Nat) (rightEdge : Bool)
    (leftpayload rightpayload : Nat → Nat) : Option Nat :=
  let range := List.range' mLo (mHi + 1 - mLo)
  match (range.takeWhile (fun m => leftpayload m ≤ capBytes)).getLast? with
  | none => none
  | some mMax =>
    match (range.reverse.takeWhile (fun m => rightpayload m ≤ capBytes)).getLast? with
    | none => none
    | some mMin =>
      if mMin > mMax then none
      else if rightEdge then some mMax
      else
        let mBalanced := (range.find? (fun m => 2 * leftpayload m ≥ payload)).getD mMax
        some (max (min mBalanced mMax) mMin)

/-- `leaf_split_point` (`pmap.rs:593-626`). `prefix[m]` is the weight of the first `m` records. -/
def leafSplitPoint (weights : List Nat) (cap : Cap) (shape : LeafShape) (edited : Option Nat) :
    Option Nat :=
  let n := weights.length
  let payload := leafPayload weights shape
  if payload ≤ cap.c || n < 2 then none
  else
    splitPoint 1 (n - 1) payload cap.c (edited == some (n - 1))
      (fun m => (weights.take m).sum + leafOverhead m shape)
      (fun m => (weights.drop m).sum + leafOverhead (n - m) shape)

/-- The split index `build_interior` takes for separators that overflow (`pmap.rs:680-711`):
    two separators are pinned to `m = 1`, the degenerate fan-out contract. -/
def interiorSplitPoint (keys : List Bytes) (cap : Cap) (edited : Option Nat) : Option Nat :=
  let n := keys.length
  if n == 2 then some 1
  else
    let lens := keys.map List.length
    splitPoint 1 (n - 2) (interiorPayload cap keys) cap.c (edited == some (n - 1))
      (fun m => (cap.ptr + 4) * m + cap.ptr + (lens.take m).sum)
      (fun m => (cap.ptr + 4) * (n - 1 - m) + cap.ptr + (lens.drop (m + 1)).sum)

end Jed.PMap
