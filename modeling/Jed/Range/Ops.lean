import Jed.Value.Value

/-!
# Range operators

The range types over their element values (`range.rs`): the build of a canonical range, the order of
bounds, the boolean operators and the set operators.
-/

namespace Jed.Ranges

/-- `RangeDesc` (`ranges_gen.rs`): a range type's element, and whether it steps. -/
structure RangeDesc where
  id : String
  element : ScalarType
  discrete : Bool
  deriving DecidableEq

/-- `RANGES`. -/
def RANGES : List RangeDesc :=
  [⟨"i32range", .int32, true⟩, ⟨"i64range", .int64, true⟩, ⟨"numrange", .decimal, false⟩,
    ⟨"tsrange", .timestamp, false⟩, ⟨"tstzrange", .timestamptz, false⟩, ⟨"daterange", .date, true⟩]

/-- A range over element values. -/
abbrev Range := RangeVal Value

/-- `elem_cmp` (`range.rs:188-198`). -/
def elemCmp : Value → Value → Ordering
  | .int x, .int y => compare x y
  | .decimal x, .decimal y => x.cmpValue y
  | .date x, .date y => compare x y
  | .timestamp x, .timestamp y => compare x y
  | .timestamptz x, .timestamptz y => compare x y
  | _, _ => .eq

attribute [grind =] elemCmp

/-- The error of a step past the element's domain. -/
def outOfRange (elem : ScalarType) : EngineError :=
  ⟨.numericValueOutOfRange, s!"value out of range for type {elem.canonicalName}",
    some elem.canonicalName⟩

/-- `increment` (`range.rs:204-226`). -/
def increment (v : Value) (elem : ScalarType) : Except Failure Value :=
  match v, elem with
  | .int n, .int16 | .int n, .int32 | .int n, .int64 =>
    if n + 1 ≤ i64Max && elem.max?.all (fun m => n + 1 ≤ m) then .ok (.int (n + 1))
    else .error (.error (outOfRange elem))
  | .date d, .date =>
    if d + 1 < i32Max then .ok (.date (d + 1)) else .error (.error (outOfRange elem))
  | _, _ => .error .panic

/-- `is_infinite_date_bound` (`range.rs:231-236`). -/
def isInfiniteDateBound (v : Value) (elem : ScalarType) : Bool :=
  match v, elem with
  | .date d, .date => d == i32Min || d == i32Max
  | _, _ => false

/-- The error of bounds out of order. -/
def boundsOutOfOrder : EngineError :=
  ⟨.dataException, "range lower bound must be less than or equal to range upper bound", none⟩

/-- The lower bound of `finalize` (`range.rs:264-271`, `282-284`). -/
def finalizeLower (desc : RangeDesc) (lower : Option Value) (inc : Bool) :
    Except Failure (Option Value × Bool) :=
  match lower with
  | none => .ok (none, false)
  | some lo =>
    if desc.discrete && !inc && !isInfiniteDateBound lo desc.element then
      (increment lo desc.element).map fun lo => (some lo, true)
    else .ok (some lo, inc)

/-- The upper bound of `finalize` (`range.rs:272-279`, `285-287`). -/
def finalizeUpper (desc : RangeDesc) (upper : Option Value) (inc : Bool) :
    Except Failure (Option Value × Bool) :=
  match upper with
  | none => .ok (none, false)
  | some hi =>
    if desc.discrete && inc && !isInfiniteDateBound hi desc.element then
      (increment hi desc.element).map fun hi => (some hi, false)
    else .ok (some hi, inc)

/-- Whether two bounds compare as `o`; an absent bound compares with nothing. -/
def boundsCmp (lower upper : Option Value) (o : Ordering) : Bool :=
  match lower, upper with
  | some lo, some hi => elemCmp lo hi == o
  | _, _ => false

/-- `finalize` (`range.rs:242-304`). -/
def finalize (desc : RangeDesc) (lower upper : Option Value) (lowerInc upperInc : Bool) :
    Except Failure Range :=
  if boundsCmp lower upper .gt then .error (.error boundsOutOfOrder)
  else do
    let (lower, lowerInc) ← finalizeLower desc lower lowerInc
    let (upper, upperInc) ← finalizeUpper desc upper upperInc
    if boundsCmp lower upper .eq && !(lowerInc && upperInc) then .ok .emptyRange
    else .ok ⟨false, lower, upper, lowerInc, upperInc⟩

/-- `cmp_bounds` (`range.rs:378-457`). -/
def cmpBounds (v1 : Option Value) (inc1 lower1 : Bool) (v2 : Option Value) (inc2 lower2 : Bool) :
    Ordering :=
  match v1, v2 with
  | none, none => if lower1 = lower2 then .eq else if lower1 then .lt else .gt
  | none, some _ => if lower1 then .lt else .gt
  | some _, none => if lower2 then .gt else .lt
  | some x, some y =>
    let c := elemCmp x y
    if c ≠ .eq then c
    else
      match inc1, inc2 with
      | false, false => if lower1 = lower2 then .eq else if lower1 then .gt else .lt
      | false, true => if lower1 then .gt else .lt
      | true, false => if lower2 then .lt else .gt
      | true, true => if lower1 = lower2 then .eq else if lower1 then .lt else .gt

attribute [grind =] cmpBounds

/-- `cmp_bound` (`range.rs:361-369`). -/
def cmpBound (v1 : Option Value) (inc1 : Bool) (v2 : Option Value) (inc2 : Bool) (isLower : Bool) :
    Ordering :=
  cmpBounds v1 inc1 isLower v2 inc2 isLower

/-- `range_total_cmp` (`range.rs:332-356`). -/
def rangeTotalCmp (a b : Range) : Ordering :=
  match a.empty, b.empty with
  | true, true => .eq
  | true, false => .lt
  | false, true => .gt
  | false, false =>
    let c := cmpBound a.lower a.lowerInc b.lower b.lowerInc true
    if c ≠ .eq then c else cmpBound a.upper a.upperInc b.upper b.upperInc false

/-- The comparisons the operators make: the lower bound of one range with the lower or the upper
    bound of another, and its upper bound with either. -/
def cmpLL (a b : Range) : Ordering := cmpBounds a.lower a.lowerInc true b.lower b.lowerInc true
def cmpLU (a b : Range) : Ordering := cmpBounds a.lower a.lowerInc true b.upper b.upperInc false
def cmpUL (a b : Range) : Ordering := cmpBounds a.upper a.upperInc false b.lower b.lowerInc true
def cmpUU (a b : Range) : Ordering := cmpBounds a.upper a.upperInc false b.upper b.upperInc false

/-- `range_contains_elem` (`range.rs:545-564`). -/
def rangeContainsElem (r : Range) (e : Value) : Bool :=
  if r.empty then false
  else
    (match r.lower with
      | none => true
      | some lo =>
        match elemCmp e lo with
        | .lt => false
        | .eq => r.lowerInc
        | .gt => true) &&
      (match r.upper with
      | none => true
      | some hi =>
        match elemCmp e hi with
        | .gt => false
        | .eq => r.upperInc
        | .lt => true)

/-- `range_contains` (`range.rs:569-592`). -/
def rangeContains (a b : Range) : Bool :=
  if b.empty then true
  else if a.empty then false
  else cmpLL a b != .gt && cmpUU a b != .lt

/-- `lower_within` (`range.rs:605-622`). -/
def lowerWithin (x y : Range) : Bool := cmpLL x y != .lt && cmpLU x y != .gt

/-- `range_overlaps` (`range.rs:596-601`). -/
def rangeOverlaps (a b : Range) : Bool :=
  if a.empty || b.empty then false else lowerWithin a b || lowerWithin b a

/-- `range_before` (`range.rs:627-639`). -/
def rangeBefore (a b : Range) : Bool :=
  if a.empty || b.empty then false else cmpUL a b == .lt

/-- `range_overleft` (`range.rs:647-659`). -/
def rangeOverleft (a b : Range) : Bool :=
  if a.empty || b.empty then false else cmpUU a b != .gt

/-- `range_overright` (`range.rs:662-674`). -/
def rangeOverright (a b : Range) : Bool :=
  if a.empty || b.empty then false else cmpLL a b != .lt

/-- `bounds_touch` (`range.rs:700-710`). -/
def boundsTouch (upper : Option Value) (upperInc : Bool) (lower : Option Value) (lowerInc : Bool) :
    Bool :=
  match upper, lower with
  | some u, some l => elemCmp u l == .eq && upperInc != lowerInc
  | _, _ => false

/-- `range_adjacent` (`range.rs:680-695`). -/
def rangeAdjacent (a b : Range) : Bool :=
  if a.empty || b.empty then false
  else
    boundsTouch a.upper a.upperInc b.lower b.lowerInc ||
      boundsTouch b.upper b.upperInc a.lower a.lowerInc

/-- `make_range` (`range.rs:724-750`). -/
def makeRange (lower upper : Option Value) (lowerInc upperInc : Bool) : Range :=
  let lowerInc := if lower.isNone then false else lowerInc
  let upperInc := if upper.isNone then false else upperInc
  if boundsCmp lower upper .gt || boundsCmp lower upper .eq && !(lowerInc && upperInc) then
    .emptyRange
  else ⟨false, lower, upper, lowerInc, upperInc⟩

/-- The error of a union with a gap. -/
def unionNotContiguous : EngineError :=
  ⟨.dataException, "result of range union would not be contiguous", none⟩

/-- The error of a difference in two pieces. -/
def differenceNotContiguous : EngineError :=
  ⟨.dataException, "result of range difference would not be contiguous", none⟩

/-- `range_union` (`range.rs:756-801`). -/
def rangeUnion (a b : Range) (strict : Bool) : Except Failure Range :=
  if a.empty then .ok b
  else if b.empty then .ok a
  else if strict && !rangeOverlaps a b && !rangeAdjacent a b then
    .error (.error unionNotContiguous)
  else
    let l := if cmpLL a b == .lt then a else b
    let u := if cmpUU a b == .gt then a else b
    .ok ⟨false, l.lower, u.upper, l.lowerInc, u.upperInc⟩

/-- `range_intersect` (`range.rs:805-835`). -/
def rangeIntersect (a b : Range) : Range :=
  if a.empty || b.empty || !rangeOverlaps a b then .emptyRange
  else
    let l := if cmpLL a b != .lt then a else b
    let u := if cmpUU a b != .gt then a else b
    makeRange l.lower u.upper l.lowerInc u.upperInc

/-- `range_minus` (`range.rs:840-915`). The last branch is its `unreachable!`. -/
def rangeMinus (a b : Range) : Except Failure Range :=
  if a.empty || b.empty then .ok a
  else if cmpLL a b == .lt && cmpUU a b == .gt then .error (.error differenceNotContiguous)
  else if cmpLU a b == .gt || cmpUL a b == .lt then .ok a
  else if cmpLL a b != .lt && cmpUU a b != .gt then .ok .emptyRange
  else if cmpLL a b != .gt && cmpUL a b != .lt && cmpUU a b != .gt then
    .ok (makeRange a.lower b.lower a.lowerInc (!b.lowerInc))
  else if cmpLL a b != .lt && cmpUU a b != .lt && cmpLU a b != .gt then
    .ok (makeRange b.upper a.upper (!b.upperInc) a.upperInc)
  else .error .panic

end Jed.Ranges
