import Jed.Key.Order

/-!
# Equality, hashing and comparison of values

What `GROUP BY`, `DISTINCT` and the hash containers use (`PartialEq` and `Hash` of `value.rs:520-622` and
of what a value is made of), and what the comparison operators use (`value.rs:622-637`, `791-1021`,
`1164-1247`).
-/

namespace Jed

open KeyCodes Ranges Key

/-- `Decimal::canonical` (`decimal.rs:303-314`): the fractional zeros at the end are dropped. -/
def Decimal.canonicalFrom : Nat → Nat → Nat × Nat
  | 0, coeff => (coeff, 0)
  | scale + 1, coeff => if coeff % 10 = 0 then canonicalFrom scale (coeff / 10) else (coeff, scale + 1)

/-- `Decimal::canonical`: the sign, the coefficient and the scale. -/
def Decimal.canonical (d : Decimal) : Bool × Nat × Nat :=
  if d.coeff = 0 then (false, 0, 0) else (d.neg, canonicalFrom d.scale d.coeff)

/-- `PartialEq for Decimal`. -/
def Decimal.eq (a b : Decimal) : Bool := a.canonical == b.canonical

mutual

/-- `PartialEq for JsonNode`. -/
def JsonNode.eq (a b : JsonNode) : Bool :=
  match a, b with
  | .null, .null => true
  | .bool a, .bool b => a == b
  | .number a, .number b => a.eq b
  | .string a, .string b => a == b
  | .array a, .array b => jsonItemsEq a b
  | .object a, .object b => jsonMembersEq a b
  | _, _ => false

def jsonItemsEq : List JsonNode → List JsonNode → Bool
  | [], [] => true
  | x :: a, y :: b => x.eq y && jsonItemsEq a b
  | _, _ => false

def jsonMembersEq : List (Bytes × JsonNode) → List (Bytes × JsonNode) → Bool
  | [], [] => true
  | (ka, va) :: a, (kb, vb) :: b => ka == kb && va.eq vb && jsonMembersEq a b
  | _, _ => false

end

mutual

/-- `PartialEq for Value`. -/
def Value.eq (a b : Value) : Bool :=
  match a, b with
  | .null, .null => true
  | .int a, .int b => a == b
  | .bool a, .bool b => a == b
  | .float32 a, .float32 b => binary32.canonBits a == binary32.canonBits b
  | .float64 a, .float64 b => binary64.canonBits a == binary64.canonBits b
  | .text a, .text b => a == b
  | .decimal a, .decimal b => a.eq b
  | .bytea a, .bytea b => a == b
  | .uuid a, .uuid b => a == b
  | .timestamp a, .timestamp b => a == b
  | .timestamptz a, .timestamptz b => a == b
  | .date a, .date b => a == b
  | .interval a, .interval b => span a == span b
  | .composite a, .composite b => valuesEq a b
  | .array aDims aLbounds aElements, .array bDims bLbounds bElements =>
    aDims == bDims && aLbounds == bLbounds && valuesEq aElements bElements
  | .range a, .range b => rangeEq a b
  | .jsonb a, .jsonb b => a.eq b
  | .json a, .json b => a == b
  | _, _ => false

def valuesEq : List Value → List Value → Bool
  | [], [] => true
  | x :: a, y :: b => x.eq y && valuesEq a b
  | _, _ => false

/-- `PartialEq for RangeVal`. -/
def rangeEq : Range → Range → Bool
  | ⟨aEmpty, aLower, aUpper, aLowerInc, aUpperInc⟩, ⟨bEmpty, bLower, bUpper, bLowerInc, bUpperInc⟩ =>
    aEmpty == bEmpty && boundEq aLower bLower && boundEq aUpper bUpper && aLowerInc == bLowerInc &&
      aUpperInc == bUpperInc

def boundEq : Option Value → Option Value → Bool
  | none, none => true
  | some a, some b => a.eq b
  | _, _ => false

end

attribute [grind =] Value.eq valuesEq rangeEq boundEq

/-- What a `Hash` writes to its hasher. -/
inductive HashWrite where
  | discriminant (n : Nat)
  | length (n : Nat)
  | number (n : Int)
  | bits (n : Nat)
  | bool (b : Bool)
  | bytes (b : Bytes)
  deriving DecidableEq

/-- `Hash for Decimal`. -/
def Decimal.hash (d : Decimal) : List HashWrite :=
  [.bool d.canonical.1, .bits d.canonical.2.1, .bits d.canonical.2.2]

mutual

/-- `Hash for JsonNode`. -/
def JsonNode.hash : JsonNode → List HashWrite
  | .null => [.discriminant 0]
  | .bool b => [.discriminant 1, .bool b]
  | .number d => .discriminant 2 :: d.hash
  | .string s => [.discriminant 3, .bytes s]
  | .array items => .discriminant 4 :: .length items.length :: jsonItemsHash items
  | .object members => .discriminant 5 :: .length members.length :: jsonMembersHash members

def jsonItemsHash : List JsonNode → List HashWrite
  | [] => []
  | x :: items => x.hash ++ jsonItemsHash items

def jsonMembersHash : List (Bytes × JsonNode) → List HashWrite
  | [] => []
  | (k, v) :: members => .bytes k :: (v.hash ++ jsonMembersHash members)

end

/-- `mem::discriminant` of a value. -/
def Value.discriminant : Value → Nat
  | .null => 0
  | .int _ => 1
  | .bool _ => 2
  | .float32 _ => 3
  | .float64 _ => 4
  | .text _ => 5
  | .decimal _ => 6
  | .bytea _ => 7
  | .uuid _ => 8
  | .timestamp _ => 9
  | .timestamptz _ => 10
  | .date _ => 11
  | .interval _ => 12
  | .composite _ => 13
  | .array .. => 14
  | .range _ => 15
  | .json _ => 16
  | .jsonb _ => 17
  | .jsonPath _ => 18

attribute [grind =] Value.discriminant

mutual

/-- `Hash for Value`. -/
def Value.hash (v : Value) : List HashWrite :=
  .discriminant v.discriminant ::
    match v with
    | .null => []
    | .int n => [.number n]
    | .bool b => [.bool b]
    | .float32 f => [.bits (binary32.canonBits f).toNat]
    | .float64 f => [.bits (binary64.canonBits f).toNat]
    | .text s => [.bytes s]
    | .decimal d => d.hash
    | .bytea b => [.bytes b]
    | .uuid u => [.bytes u]
    | .timestamp m => [.number m]
    | .timestamptz m => [.number m]
    | .date d => [.number d]
    | .interval iv => [.number (span iv)]
    | .composite fields => valuesHash fields
    | .array dims lbounds elements =>
      .length dims.length :: (dims.map .bits ++ (.length lbounds.length :: (lbounds.map .number ++
        (.length elements.length :: valuesHash elements))))
    | .range r => rangeHash r
    | .json s => [.bytes s]
    | .jsonb n => n.hash
    | .jsonPath s => [.bytes s]

def valuesHash : List Value → List HashWrite
  | [] => []
  | v :: vs => v.hash ++ valuesHash vs

/-- `Hash for RangeVal`. -/
def rangeHash : Range → List HashWrite
  | ⟨empty, lower, upper, lowerInc, upperInc⟩ =>
    .bool empty :: (boundHash lower ++ (boundHash upper ++ [.bool lowerInc, .bool upperInc]))

def boundHash : Option Value → List HashWrite
  | none => [.discriminant 0]
  | some v => .discriminant 1 :: v.hash

end

attribute [grind =] Value.hash valuesHash rangeHash boundHash

/-- `ThreeValued`. -/
inductive ThreeValued where
  | true
  | false
  | unknown
  deriving DecidableEq, Repr

def bool3 (b : Bool) : ThreeValued := if b then .true else .false

/-- `Decimal::from_i64`. -/
def Decimal.fromI64 (n : Int) : Decimal := ⟨decide (n < 0), 0, n.natAbs, by simp; omega⟩

/-- `total_cmp_f64` of floats of two widths, the narrower one widened to the same value. -/
def totalCmpWidened {f g : FloatFormat} (x : BitVec f.width) (y : BitVec g.width) : Ordering :=
  match f.isNaN x, g.isNaN y with
  | true, true => .eq
  | true, false => .gt
  | false, true => .lt
  | false, false => compare (f.value x) (g.value y)

/-- `numeric_cmp` (`value.rs:610-622`). -/
def numericCmp (a b : Value) : Option Ordering :=
  match a, b with
  | .int x, .int y => some (compare x y)
  | .decimal x, .decimal y => some (x.cmpValue y)
  | .int x, .decimal y => some ((Decimal.fromI64 x).cmpValue y)
  | .decimal x, .int y => some (x.cmpValue (Decimal.fromI64 y))
  | .float32 x, .float64 y => some (@totalCmpWidened binary32 binary64 x y)
  | .float64 x, .float32 y => some (@totalCmpWidened binary64 binary32 x y)
  | _, _ => none

attribute [grind =] numericCmp

namespace Value

/-- The arms of `eq3` that do not go into fields or elements. -/
def flatEq3 (a b : Value) : ThreeValued :=
  match numericCmp a b with
  | some ord => bool3 (ord == .eq)
  | none =>
    match a, b with
    | .text a, .text b => bool3 (a == b)
    | .bool a, .bool b => bool3 (a == b)
    | .float32 a, .float32 b => bool3 (binary32.totalCmp a b == .eq)
    | .float64 a, .float64 b => bool3 (binary64.totalCmp a b == .eq)
    | .bytea a, .bytea b => bool3 (a == b)
    | .uuid a, .uuid b => bool3 (a == b)
    | .timestamp a, .timestamp b => bool3 (a == b)
    | .timestamptz a, .timestamptz b => bool3 (a == b)
    | .date a, .date b => bool3 (a == b)
    | .interval a, .interval b => bool3 (span a == span b)
    | .range a, .range b => bool3 (rangeEq a b)
    | .jsonb a, .jsonb b => bool3 (a.eq b)
    | _, _ => .unknown

attribute [grind =] flatEq3

mutual

/-- `eq3`. -/
def eq3 (a b : Value) : ThreeValued :=
  match a, b with
  | .composite a, .composite b => fieldsEq3 a b false
  | .array aDims aLbounds aElements, .array bDims bLbounds bElements =>
    bool3 (Value.eq (.array aDims aLbounds aElements) (.array bDims bLbounds bElements))
  | a, b => flatEq3 a b

/-- The loop of `eq3` over the fields of two composites. -/
def fieldsEq3 : List Value → List Value → Bool → ThreeValued
  | x :: a, y :: b, anyUnknown =>
    match eq3 x y with
    | .false => .false
    | .unknown => fieldsEq3 a b true
    | .true => fieldsEq3 a b anyUnknown
  | _, _, anyUnknown => if anyUnknown then .unknown else .true

end

attribute [grind =] eq3 fieldsEq3

/-- The arms of `lt3` and of `gt3` that do not go into fields or elements. -/
def flatOrder3 (o : Ordering) (a b : Value) : ThreeValued :=
  match numericCmp a b with
  | some ord => bool3 (ord == o)
  | none =>
    match a, b with
    | .text a, .text b => bool3 (lexCompare a b == o)
    | .bool a, .bool b => bool3 (compare a b == o)
    | .float32 a, .float32 b => bool3 (binary32.totalCmp a b == o)
    | .float64 a, .float64 b => bool3 (binary64.totalCmp a b == o)
    | .bytea a, .bytea b => bool3 (lexCompare a b == o)
    | .uuid a, .uuid b => bool3 (lexCompare a b == o)
    | .timestamp a, .timestamp b => bool3 (compare a b == o)
    | .timestamptz a, .timestamptz b => bool3 (compare a b == o)
    | .date a, .date b => bool3 (compare a b == o)
    | .interval a, .interval b => bool3 (compare (span a) (span b) == o)
    | .range a, .range b => bool3 (rangeTotalCmp a b == o)
    | .jsonb a, .jsonb b => bool3 (a.cmp b == o)
    | _, _ => .unknown

attribute [grind =] flatOrder3

end Value

/-- `array_shape_cmp` (`value.rs:1183-1205`), from the number of elements on. -/
def arrayShapeCmp (aDims : List Nat) (aLbounds : List Int) (aLen : Nat) (bDims : List Nat)
    (bLbounds : List Int) (bLen : Nat) : Ordering :=
  (compare aLen bLen).then ((compare aDims.length bDims.length).then
    (listCompare dimCmp (aDims.zip aLbounds) (bDims.zip bLbounds)))

mutual

/-- `elem_total_cmp` (`value.rs:1214-1232`); what its last arm calls is neither of two composites nor of
    two arrays. -/
def elemTotalCmp (x y : Value) : Ordering :=
  match x, y with
  | .null, .null => .eq
  | .null, _ => .gt
  | _, .null => .lt
  | .composite a, .composite b => (elemsTotalCmp a b).then (compare a.length b.length)
  | .array aDims aLbounds aElements, .array bDims bLbounds bElements =>
    (elemsTotalCmp aElements bElements).then
      (arrayShapeCmp aDims aLbounds aElements.length bDims bLbounds bElements.length)
  | x, y =>
    if x.flatEq3 y = .true then .eq else if x.flatOrder3 .lt y = .true then .lt else .gt

/-- The elements or fields of two values, pairwise. -/
def elemsTotalCmp : List Value → List Value → Ordering
  | x :: a, y :: b => (elemTotalCmp x y).then (elemsTotalCmp a b)
  | _, _ => .eq

end

attribute [grind =] elemTotalCmp elemsTotalCmp

/-- `array_total_cmp`. -/
def arrayTotalCmp (aDims : List Nat) (aLbounds : List Int) (aElements : List Value) (bDims : List Nat)
    (bLbounds : List Int) (bElements : List Value) : Ordering :=
  (elemsTotalCmp aElements bElements).then
    (arrayShapeCmp aDims aLbounds aElements.length bDims bLbounds bElements.length)

/-- `composite_total_cmp`. -/
def compositeTotalCmp (a b : List Value) : Ordering :=
  (elemsTotalCmp a b).then (compare a.length b.length)

namespace Value

mutual

/-- `lt3` (at `.lt`) and `gt3` (at `.gt`). -/
def order3 (o : Ordering) (a b : Value) : ThreeValued :=
  match a, b with
  | .composite a, .composite b => compositeOrder3 o a b
  | .array aDims aLbounds aElements, .array bDims bLbounds bElements =>
    bool3 (arrayTotalCmp aDims aLbounds aElements bDims bLbounds bElements == o)
  | a, b => flatOrder3 o a b

/-- `composite_order3` (`value.rs:1012-1021`). -/
def compositeOrder3 (o : Ordering) : List Value → List Value → ThreeValued
  | x :: a, y :: b =>
    match x.eq3 y with
    | .true => compositeOrder3 o a b
    | .false => order3 o x y
    | .unknown => .unknown
  | _, _ => .false

end

attribute [grind =] order3 compositeOrder3

/-- `lt3`. -/
def lt3 (a b : Value) : ThreeValued := order3 .lt a b

/-- `gt3`. -/
def gt3 (a b : Value) : ThreeValued := order3 .gt a b

mutual

/-- `not_distinct_from`. -/
def notDistinctFrom (a b : Value) : Bool :=
  match a, b with
  | .null, .null => true
  | .null, _ => false
  | _, .null => false
  | .composite a, .composite b => a.length == b.length && fieldsNotDistinct a b
  | .array aDims aLbounds aElements, .array bDims bLbounds bElements =>
    Value.eq (.array aDims aLbounds aElements) (.array bDims bLbounds bElements)
  | .range a, .range b => rangeEq a b
  | a, b => eq3 a b == .true

def fieldsNotDistinct : List Value → List Value → Bool
  | x :: a, y :: b => notDistinctFrom x y && fieldsNotDistinct a b
  | _, _ => true

end

attribute [grind =] notDistinctFrom fieldsNotDistinct

end Value

end Jed
