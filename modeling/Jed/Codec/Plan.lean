import Jed.Codec.Stored

/-!
# The disposition plan

Which of a record's values are compressed, and which leave it for an overflow chain
(`format.rs:1286-1504`). Nothing happens to a record that fits; otherwise values are compressed,
largest first, and then moved out, largest first, until the record fits. A deferred value is planned
from the lengths its stored form records.
-/

namespace Jed.Codec

open Key PMap

/-- `EXTERNAL_PTR_LEN`, `EXTERNAL_COMP_PTR_LEN` and `S_COMPRESS` (`format.rs:477-484`). -/
def EXTERNAL_PTR_LEN : Nat := 1 + 4 + 4
def EXTERNAL_COMP_PTR_LEN : Nat := 1 + 4 + 4 + 4
def S_COMPRESS : Nat := 32

/-- `CompBlock` (`format.rs:1299-1311`): a block, or the length of one that stays on its chain. -/
inductive CompBlock where
  | owned (comp : Bytes)
  | onChain (len : Nat)

def CompBlock.len : CompBlock → Nat
  | .owned comp => comp.length
  | .onChain len => len

/-- `Disp` (`format.rs:1288-1293`), the block of a resident or a deferred value with it. -/
inductive PlanDisp where
  | inline
  | inlineComp (comp : CompBlock)
  | external
  | externalComp (comp : CompBlock)

/-- `RecordPlan` (`format.rs:1325-1335`). -/
structure RecordPlan where
  disp : List PlanDisp
  size : Nat
  compressUnits : Nat
  external : Nat
  payloadLen : List Nat

/-- `fixed_value_width` (`format.rs:1221-1245`). -/
def fixedValueWidth : ColType → Option Nat
  | .scalar s =>
    match s with
    | .int16 => some 2
    | .int32 => some 4
    | .int64 => some 8
    | .bool => some 1
    | .uuid => some 16
    | .timestamp | .timestamptz => some 8
    | .date => some 4
    | .interval => some 16
    | .float64 => some 8
    | .float32 => some 4
    | .text | .decimal | .bytea | .json | .jsonb | .jsonPath => none
  | .composite _ | .array _ | .range _ => none

def Stored.isNull : Stored → Bool
  | .value v => Codec.isNull v
  | .unfetched _ => false

/-- The payload length a deferred value records. -/
def Unfetched.payloadLen (ct : ColType) : Unfetched → Nat
  | .inline body => 1 + body.length - inlineHeaderLen ct
  | .external _ len => len
  | .inlineComp _ rawLen => rawLen
  | .externalComp _ _ rawLen => rawLen

/-- `value_facts` (`format.rs:1340-1362`): the inline size and the payload length. -/
def valueFacts (ct : ColType) : Stored → Except Failure (Nat × Nat)
  | .unfetched u => .ok (u.payloadLen ct + inlineHeaderLen ct, u.payloadLen ct)
  | .value v =>
    if isNull v then .ok (0, 0)
    else do
      let inline ← encodeValue ct v
      let payload ← if isSpillable ct then valuePayload ct v else .ok []
      return (inline.length, payload.length)

/-- What a column adds to a record as it is, and the payload it may be compressed or moved by. -/
def columnFacts (c : ColType × Stored) : Except Failure (Nat × Nat) :=
  match fixedValueWidth c.1 with
  | some w => .ok (w, 0)
  | none => valueFacts c.1 c.2

/-- `planning_payload` (`format.rs:1540-1551`). -/
def planningPayload (ct : ColType) : Stored → Except Failure Bytes
  | .unfetched (.inline body) => .ok (body.drop (min (inlineHeaderLen ct - 1) body.length))
  | .unfetched _ => .error .panic
  | .value v => valuePayload ct v

/-- The outcome of a compression attempt (`format.rs:1434-1448`): known from a large stored form. -/
def attempt (ct : ColType) (s : Stored) : Except Failure (Option CompBlock) :=
  match s with
  | .unfetched (.external _ _) => .ok none
  | .unfetched (.inlineComp comp _) => .ok (some (.owned comp))
  | .unfetched (.externalComp _ storedLen _) => .ok (some (.onChain storedLen))
  | s => (planningPayload ct s).map fun payload => some (.owned (Lz4.compress payload))

/-- What the plan keeps while it is made. -/
structure Planning where
  disp : Nat → PlanDisp
  cur : Nat → Nat
  size : Nat
  compressUnits : Nat
  external : Nat

/-- `usize::div_ceil`. -/
def divCeil (a b : Nat) : Nat := (a + b - 1) / b

/-- The order of both passes: the largest first, ties by ascending index. -/
def largestFirst (size : Nat → Nat) (a b : Nat) : Bool := size b < size a || size a == size b && a ≤ b

/-- A value compressed. -/
def Planning.compress (s : Planning) (i : Nat) (comp : CompBlock) : Planning :=
  { s with
    disp := Function.update s.disp i (.inlineComp comp)
    cur := Function.update s.cur i (INLINE_COMP_OVERHEAD + comp.len)
    size := s.size - s.cur i + INLINE_COMP_OVERHEAD + comp.len }

/-- Pass 1 (`format.rs:1429-1455`). -/
def compressPass (inline payloadLen : Nat → Nat) (attempt : Nat → Except Failure (Option CompBlock))
    (c max : Nat) : List Nat → Planning → Except Failure Planning
  | [], s => .ok s
  | i :: cand, s =>
    if s.size ≤ max then .ok s
    else do
      let comp ← attempt i
      let s := { s with compressUnits := s.compressUnits + divCeil (payloadLen i) c }
      match comp with
      | none => compressPass inline payloadLen attempt c max cand s
      | some comp =>
        if INLINE_COMP_OVERHEAD + comp.len < inline i then
          compressPass inline payloadLen attempt c max cand (s.compress i comp)
        else compressPass inline payloadLen attempt c max cand s

/-- The pointer of a value that leaves the record in its current form. -/
def pointerLen (tag : Nat) : PlanDisp → Nat
  | .inlineComp _ => EXTERNAL_COMP_PTR_LEN + tag
  | _ => EXTERNAL_PTR_LEN + tag

/-- A value moved out, as it is or as pass 1 compressed it. -/
def Planning.externalize (s : Planning) (payloadLen : Nat → Nat) (tag i : Nat) : Planning :=
  let moved :=
    match s.disp i with
    | .inlineComp c => (c.len, PlanDisp.externalComp c)
    | _ => (payloadLen i, PlanDisp.external)
  { s with
    disp := Function.update s.disp i moved.2
    cur := Function.update s.cur i (pointerLen tag (s.disp i))
    size := s.size - s.cur i + pointerLen tag (s.disp i)
    external := s.external + moved.1 }

/-- Pass 2 (`format.rs:1479-1496`). -/
def externalizePass (payloadLen : Nat → Nat) (tag max : Nat) : List Nat → Planning → Planning
  | [], s => s
  | i :: cand, s =>
    if s.size ≤ max then s
    else externalizePass payloadLen tag max cand (s.externalize payloadLen tag i)

/-- The candidates of pass 1. -/
def compressCandidates (n : Nat) (inline payloadLen : Nat → Nat) : List Nat :=
  ((List.range n).filter fun i => S_COMPRESS ≤ payloadLen i).mergeSort (largestFirst inline)

/-- The candidates of pass 2. -/
def externalizeCandidates (n : Nat) (spillable : Nat → Bool) (tag : Nat) (s : Planning) : List Nat :=
  ((List.range n).filter fun i => spillable i && pointerLen tag (s.disp i) < s.cur i).mergeSort
    (largestFirst s.cur)

/-- The passes, over what is known of the columns. -/
def runPasses (n : Nat) (inline payloadLen : Nat → Nat) (spillable : Nat → Bool)
    (attempt : Nat → Except Failure (Option CompBlock)) (cap : Cap) (max : Nat) (s : Planning) :
    Except Failure Planning :=
  if s.size ≤ max then .ok s
  else do
    let s ← compressPass inline payloadLen attempt cap.c max (compressCandidates n inline payloadLen) s
    if s.size ≤ max then return s
    else return externalizePass payloadLen cap.tag max (externalizeCandidates n spillable cap.tag s) s

/-- The payload length of a column that can be compressed or moved. -/
def spillLen (c : ColType × Stored) (facts : Nat × Nat) : Nat :=
  if isSpillable c.1 && !c.2.isNull then facts.2 else 0

/-- The plan of the columns, with what is known of them. -/
def planColumns (cols : List (ColType × Stored)) (facts : List (Nat × Nat)) (keyLen : Nat) (cap : Cap) :
    Except Failure RecordPlan := do
  let inline := fun i => (facts.map Prod.fst).getD i 0
  let payloadLen := fun i => (List.zipWith spillLen cols facts).getD i 0
  let start : Planning := ⟨fun _ => .inline, inline, keyLen + (facts.map Prod.fst).sum, 0, 0⟩
  let s ← runPasses cols.length inline payloadLen (fun i => (cols.map (isSpillable ·.1)).getD i false)
    (fun i => ((cols[i]?).map fun c => attempt c.1 c.2).getD (.error .panic)) cap
    (recordMax cap.c cols.length) start
  return ⟨(List.range cols.length).map s.disp, s.size, s.compressUnits, s.external,
    List.zipWith spillLen cols facts⟩

/-- `plan_dispositions` (`format.rs:1382-1504`), of as many values as columns. -/
def planDispositions (colTypes : List ColType) (key : Bytes) (row : List Stored) (cap : Cap) :
    Except Failure RecordPlan := do
  let facts ← (colTypes.zip row).mapM columnFacts
  planColumns (colTypes.zip row) facts key.length cap

end Jed.Codec
