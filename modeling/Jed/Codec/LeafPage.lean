import Jed.Codec.Plan

/-!
# Node payloads

What the page of a node holds (`format.rs:4020-4305`): the records of a leaf by columns, each value in
the form that the plan of its record gives it, or the pointers and separators of an interior. A value
that was deferred is written from its stored bytes where its form stays.
-/

namespace Jed.Codec

open Key PMap

/-- The database that the pointers of deferred values name. -/
structure Paging where
  fetch : PageRef → Except Failure Bytes
  cap : Cap

/-- `ChainSource` (`format.rs:4049-4055`). -/
structure ChainSource where
  paging : Option Paging
  share : Bool

/-- What the encoder leaves: the pages it took, those of the chains it wrote, and the first ones of
    the chains it kept. -/
structure Written where
  taken : Nat
  ovf : List (Nat × Bytes)
  shared : List Nat

def NO_PAGER : Failure := dataCorrupted "deferred large value with no pager at encode"

/-- `read_chain`. -/
def ChainSource.readChain (src : ChainSource) (first : PageRef) (len : Nat) : Except Failure Bytes :=
  match src.paging with
  | none => .error NO_PAGER
  | some paging => readOverflowChain paging.fetch paging.cap len first

/-- `resident_value`. -/
def ChainSource.residentValue (src : ChainSource) (ct : ColType) : Stored → Except Failure Value
  | .value v => .ok v
  | .unfetched u =>
    match src.paging with
    | none => .error NO_PAGER
    | some paging => resolveUnfetched ct u paging.fetch paging.cap

/-- `comp_bytes`. -/
def ChainSource.compBytes (src : ChainSource) : CompBlock → Stored → Except Failure Bytes
  | .owned comp, _ => .ok comp
  | .onChain _, .unfetched (.externalComp first storedLen _) => src.readChain first storedLen
  | .onChain _, _ => .error (dataCorrupted "a chained LZ4 block with no chain")

/-- `write_overflow_chain`, on the next pages that `take` yields. -/
def writeChain (sealer : Sealer) (fresh : Nat → Nat) (payload : Bytes) (w : Written) :
    Except Failure (PageRef × Written) := do
  let (first, ovf) ← writeOverflowChain payload sealer fun i => fresh (w.taken + i)
  return (first, { w with
    taken := w.taken + (chunks sealer.cap.chain payload).length
    ovf := w.ovf ++ ovf })

/-- `keep_chain`. -/
def ChainSource.keepChain (src : ChainSource) (sealer : Sealer) (fresh : Nat → Nat) (first : PageRef)
    (stored : Nat) (w : Written) : Except Failure (PageRef × Written) :=
  if src.share then .ok (first, { w with shared := w.shared ++ [first.page] })
  else do
    let bytes ← src.readChain first stored
    writeChain sealer fresh bytes w

/-- The pointer of a value that is outside its record. -/
def externalPointer (cap : Cap) (first : PageRef) (len : Nat) : Bytes :=
  TAG_EXTERNAL :: (beBytes 4 first.page ++ (beBytes 4 len ++ first.tag.take cap.tag))

/-- The pointer of a value that is outside its record, and compressed. -/
def externalCompPointer (cap : Cap) (first : PageRef) (storedLen rawLen : Nat) : Bytes :=
  TAG_EXTERNAL_COMP :: (beBytes 4 first.page ++ (beBytes 4 storedLen ++
    (beBytes 4 rawLen ++ first.tag.take cap.tag)))

/-- `encode_disposed_value` (`format.rs:4131-4201`), of any stored value. -/
def encodeStored (src : ChainSource) (sealer : Sealer) (fresh : Nat → Nat) (ct : ColType) (s : Stored)
    (disp : PlanDisp) (rawLen : Nat) (w : Written) : Except Failure (Bytes × Written) :=
  match disp, s with
  | .inline, .unfetched (.inline body) => .ok (0x00 :: body, w)
  | .inline, s => do
    let v ← src.residentValue ct s
    let bytes ← encodeValue ct v
    return (bytes, w)
  | .external, .unfetched (.external first len) => do
    let (first, w) ← src.keepChain sealer fresh first len w
    return (externalPointer sealer.cap first len, w)
  | .external, s => do
    let v ← src.residentValue ct s
    let payload ← valuePayload ct v
    let (first, w) ← writeChain sealer fresh payload w
    return (externalPointer sealer.cap first payload.length, w)
  | .inlineComp c, s => do
    let comp ← src.compBytes c s
    return (TAG_INLINE_COMP :: (beBytes 4 rawLen ++ (beBytes 2 comp.length ++ comp)), w)
  | .externalComp _, .unfetched (.externalComp first storedLen rawLen) => do
    let (first, w) ← src.keepChain sealer fresh first storedLen w
    return (externalCompPointer sealer.cap first storedLen rawLen, w)
  | .externalComp c, s => do
    let comp ← src.compBytes c s
    let (first, w) ← writeChain sealer fresh comp w
    return (externalCompPointer sealer.cap first comp.length rawLen, w)

/-- `encode_value`, which a deferred value does not reach. -/
def encodeResident (ct : ColType) : Stored → Except Failure Bytes
  | .value v => encodeValue ct v
  | .unfetched _ => .error .panic

/-- A value in its column's region: a slot of the column's width, or the tagged form. -/
def encodeCell (src : ChainSource) (sealer : Sealer) (fresh : Nat → Nat) (c : ColType × Stored)
    (disp : PlanDisp) (rawLen : Nat) (w : Written) : Except Failure (Bytes × Written) :=
  match fixedValueWidth c.1 with
  | some width =>
    if c.2.isNull then .ok (List.replicate width 0, w)
    else (encodeResident c.1 c.2).map fun bytes => (bytes.drop 1, w)
  | none =>
    if c.2.isNull then .ok ([], w)
    else encodeStored src sealer fresh c.1 c.2 disp rawLen w

/-- The columns of a record, in order. -/
def encodeCells (cell : ColType × Stored → PlanDisp → Nat → Written → Except Failure (Bytes × Written)) :
    List (ColType × Stored) → List PlanDisp → List Nat → Written → Except Failure (List Bytes × Written)
  | [], _, _, w => .ok ([], w)
  | c :: cols, d :: disps, n :: lens, w => do
    let (bytes, w) ← cell c d n w
    let (rest, w) ← encodeCells cell cols disps lens w
    return (bytes :: rest, w)
  | _ :: _, _, _, _ => .error .panic

/-- The records of a leaf, in order, each by its plan. -/
def encodeRecords (src : ChainSource) (sealer : Sealer) (fresh : Nat → Nat) (colTypes : List ColType) :
    List (Bytes × List Stored) → Written → Except Failure (List (List Bytes) × Written)
  | [], w => .ok ([], w)
  | (key, row) :: records, w => do
    let plan ← planDispositions colTypes key row sealer.cap
    let (cells, w) ← encodeCells (encodeCell src sealer fresh) (colTypes.zip row) plan.disp
      plan.payloadLen w
    let (rest, w) ← encodeRecords src sealer fresh colTypes records w
    return (cells :: rest, w)

/-- Where each of the parts ends, when they start at `off`. -/
def endOffsets : Nat → List Nat → List Nat
  | _, [] => []
  | off, len :: lens => (off + len) :: endOffsets (off + len) lens

attribute [grind =] endOffsets

/-- A directory of end offsets. -/
def directory (parts : List Bytes) : Bytes := (endOffsets 0 (parts.map List.length)).flatMap (beBytes 4)

/-- The values of a column (`val_bytes[c]`). -/
def columnOf (cells : List (List Bytes)) (c : Nat) : List Bytes := cells.filterMap (·[c]?)

/-- Its NULLs (`nulls[c]`). -/
def nullsOf (records : List (Bytes × List Stored)) (c : Nat) : List Bool :=
  records.map fun r => (r.2[c]?).any Stored.isNull

/-- The length of a column's region, of `n` records. -/
def regionLen (n : Nat) (ct : ColType) (bodies : List Bytes) : Nat :=
  1 + match fixedValueWidth ct with
    | some _ => (n + 7) / 8 + (bodies.map List.length).sum
    | none => 4 * n + (bodies.map List.length).sum

/-- A column's region: its flags, its bitmap or directory, and its values. -/
def region (ct : ColType) (nulls : List Bool) (bodies : List Bytes) : Bytes :=
  0x00 :: ((match fixedValueWidth ct with
    | some _ => nullBitmap nulls
    | none => directory bodies) ++ bodies.flatten)

/-- The payload of a leaf, by columns. -/
def layLeaf (colTypes : List ColType) (records : List (Bytes × List Stored))
    (cells : List (List Bytes)) : Bytes :=
  let keys := records.map Prod.fst
  let columns := colTypes.zipIdx
  let base := 4 * keys.length + keys.flatten.length + 4 * (colTypes.length + 1)
  let colStart := base :: endOffsets base
    (columns.map fun c => regionLen keys.length c.1 (columnOf cells c.2))
  directory keys ++ (keys.flatten ++ (colStart.flatMap (beBytes 4) ++
    columns.flatMap fun c => region c.1 (nullsOf records c.2) (columnOf cells c.2)))

/-- `encode_leaf_pax` (`format.rs:4214-4305`). -/
def encodeLeafPax (src : ChainSource) (sealer : Sealer) (fresh : Nat → Nat) (colTypes : List ColType)
    (records : List (Bytes × List Stored)) (w : Written) : Except Failure (Bytes × Written) := do
  let (cells, w) ← encodeRecords src sealer fresh colTypes records w
  return (layLeaf colTypes records cells, w)

/-- `leaf_shape` (`format.rs:1264-1273`). -/
def leafShape (colTypes : List ColType) : LeafShape :=
  let fixed := (colTypes.filter fun ct => (fixedValueWidth ct).isSome).length
  ⟨fixed, colTypes.length - fixed⟩

/-- `record_size` (`format.rs:1558-1560`). -/
def recordSize (colTypes : List ColType) (key : Bytes) (row : List Stored) (cap : Cap) :
    Except Failure Nat := (planDispositions colTypes key row cap).map RecordPlan.size

/-- `PageRef::push` (`format.rs:257-260`). -/
def PageRef.push (p : PageRef) (cap : Cap) : Bytes := beBytes 4 p.page ++ p.tag.take cap.tag

/-- `encode_interior` (`format.rs:4026-4040`). -/
def encodeInterior (seps : List Bytes) (childPages : List PageRef) (cap : Cap) : Bytes :=
  childPages.flatMap (·.push cap) ++ (directory seps ++ seps.flatten)

end Jed.Codec
