import Jed.Lib.Positional
import Jed.Range.Ops
import Jed.Value.Float

/-!
# Order-preserving keys

The encoders of key bytes (`encoding.rs`, `executor/access_encode.rs:5331-5564`, and those of
decimals, intervals and ranges).
-/

namespace Jed

open KeyCodes Positional Ranges

/-- `DataCorrupted`, of a message. -/
def dataCorrupted (message : String) : Failure := .error ⟨.dataCorrupted, message, none⟩

namespace Key

/-- The low `w` bytes of a number, the most significant first. -/
def beBytes (w n : Nat) : Bytes := (digits 256 w n).map UInt8.ofNat

/-- `ScalarType::width_bytes` (`types.rs:270-296`), 0 standing for its panic. -/
def widthBytes : ScalarType → Nat
  | .bool => 1
  | .int16 => 2
  | .int32 => 4
  | .int64 | .timestamp | .timestamptz => 8
  | .uuid => 16
  | .date => 4
  | .float32 => 4
  | .float64 => 8
  | .text | .decimal | .bytea | .interval | .json | .jsonb | .jsonPath => 0

/-- `encode_int` (`encoding.rs:12-19`), of a type that has a width. -/
def encodeInt (ty : ScalarType) (value : Int) : Bytes :=
  let width := widthBytes ty
  let bias : Int := 2 ^ (width * 8 - 1)
  beBytes width ((value + bias) % 2 ^ 128).toNat

/-- `encode_bool` (`encoding.rs:39-41`). -/
def encodeBool (value : Bool) : Bytes := [if value then 1 else 0]

/-- `encode_terminated` (`encoding.rs:52-63`). -/
def encodeTerminated : Bytes → Bytes
  | [] => [0x00, 0x01]
  | b :: content => b :: if b = 0x00 then 0xFF :: encodeTerminated content else encodeTerminated content

/-- `mag_to_decimal_str` (`decimal.rs:1469-1480`), as the digits' values. -/
def magToDecimalStr (coeff : Nat) : List Nat :=
  if coeff = 0 then [0] else (Nat.digits 10 coeff).reverse

/-- The digits without the zeros at their end. -/
def popZeros (digits : List Nat) : List Nat := digits.rdropWhile (· == 0)

/-- The digits in twos, a last one alone standing before a zero. -/
def pairs : List Nat → List Nat
  | [] => []
  | [x] => [x * 10]
  | x :: y :: rest => (x * 10 + y) :: pairs rest

attribute [grind =] pairs

/-- The exponent, mantissa and terminator of `Decimal::encode_key`. -/
def decimalBody (d : Decimal) : Bytes :=
  let digits := popZeros (magToDecimalStr d.coeff)
  let decpt : Int := (d.precision : Int) - d.scale
  let e := (decpt + 1) / 2
  let grouped := if decpt % 2 = 1 then 0 :: digits else digits
  encodeInt .int32 e ++ (pairs grouped).map (fun v => UInt8.ofNat (v + 1)) ++ [0x00]

/-- `Decimal::encode_key` (`decimal.rs:645-691`). -/
def encodeDecimal (d : Decimal) : Bytes :=
  if d.isZero then [0x04]
  else if d.neg then 0x03 :: (decimalBody d).map (~~~ ·)
  else 0x05 :: decimalBody d

/-- `MICROS_PER_DAY`, `DAYS_PER_MONTH`. -/
def microsPerDay : Int := 86400 * 1000000
def daysPerMonth : Int := 30

/-- `Interval::span` (`interval.rs:44-47`). -/
def span (iv : Interval) : Int := (iv.months * daysPerMonth + iv.days) * microsPerDay + iv.micros

/-- `Interval::encode_key` (`interval.rs:96-99`). -/
def encodeInterval (iv : Interval) : Bytes := beBytes 16 ((span iv + 2 ^ 127) % 2 ^ 128).toNat

/-- `encode_f64_key`, `encode_f32_key`. -/
def encodeFloat (fmt : FloatFormat) (f : BitVec fmt.width) : Bytes :=
  let bits := fmt.canonBits f
  let bits := bits ^^^ (if bits.msb then BitVec.allOnes _ else 1#_ <<< fmt.magnitudeBits)
  beBytes (fmt.width / 8) bits.toNat

/-- `key_kind_mismatch`. -/
def keyKindMismatch : Failure := dataCorrupted "a key value does not match its column type"

/-- A frozen collation, as `collation::sort_key` reads it: the sort key of a text. -/
structure Collation where
  sortKey : Bytes → Except Failure Bytes

/-- `int_key` of `encode_key_value`: an integer in the width of its type. -/
def intKey (ty : ScalarType) (n : Int) : Except Failure Bytes :=
  match ty with
  | .int16 | .int32 | .int64 | .timestamp | .timestamptz | .date => .ok (encodeInt ty n)
  | _ => .error keyKindMismatch

/-- `encode_key_value` (`access_encode.rs:5331-5367`), of a fetched value. -/
def encodeKeyValue (ty : ScalarType) (value : Value) (coll : Option Collation) :
    Except Failure Bytes :=
  match value with
  | .int n => intKey ty n
  | .bool b => .ok (encodeBool b)
  | .uuid u => .ok u
  | .timestamp m | .timestamptz m => intKey ty m
  | .date d => intKey ty d
  | .text s =>
    match coll with
    | some c => c.sortKey s
    | none => .ok (encodeTerminated s)
  | .bytea b => .ok (encodeTerminated b)
  | .decimal d => .ok (encodeDecimal d)
  | .interval iv => .ok (encodeInterval iv)
  | .float64 f => .ok (encodeFloat binary64 f)
  | .float32 f => .ok (encodeFloat binary32 f)
  | _ => .error keyKindMismatch

/-- `encode_range_elem` (`range.rs:513-534`). -/
def encodeRangeElem (elem : ScalarType) (v : Value) : Except Failure Bytes :=
  let intCoded : Bool := match elem with
    | .int32 | .int64 | .date | .timestamp | .timestamptz => true
    | _ => false
  match v with
  | .int n => if intCoded then .ok (encodeInt elem n) else .error keyKindMismatch
  | .decimal d => .ok (encodeDecimal d)
  | .date d => if intCoded then .ok (encodeInt elem d) else .error keyKindMismatch
  | .timestamp m | .timestamptz m =>
    if intCoded then .ok (encodeInt elem m) else .error keyKindMismatch
  | _ => .error keyKindMismatch

/-- `push_bound` (`range.rs:490-506`): what it appends. -/
def pushBound (elem : ScalarType) (v : Option Value) (inc isLower : Bool) : Except Failure Bytes :=
  match v with
  | none => .ok [if isLower then 0x00 else 0x02]
  | some val => do
    let key ← encodeRangeElem elem val
    return 0x01 :: (key ++ [if inc = isLower then 0x00 else 0x01])

/-- `encode_range_key` (`range.rs:472-482`). -/
def encodeRangeKey (elem : ScalarType) (rv : Range) : Except Failure Bytes :=
  if rv.empty then .ok [0x00]
  else do
    let lower ← pushBound elem rv.lower rv.lowerInc true
    let upper ← pushBound elem rv.upper rv.upperInc false
    return 0x01 :: (lower ++ upper)

/-- One element of an array key. -/
def encodeElement (elem : ScalarType) (coll : Option Collation) (e : Value) :
    Except Failure Bytes :=
  match e with
  | .null => .ok [0x02]
  | v => do
    let key ← encodeKeyValue elem v coll
    return 0x01 :: key

/-- One dimension of an array key. -/
def encodeDim (dim : Nat) (lbound : Int) : Bytes := beBytes 4 dim ++ encodeInt .int32 lbound

/-- The keys of a list one behind the other, unless one of them fails. -/
def concatKeys {α : Type} (encode : α → Except Failure Bytes) : List α → Except Failure Bytes
  | [] => .ok []
  | x :: xs => do
    let key ← encode x
    let rest ← concatKeys encode xs
    return key ++ rest

/-- `encode_array_key` (`access_encode.rs:5542-5564`). -/
def encodeArrayKey (elem : ScalarType) (dims : List Nat) (lbounds : List Int)
    (elements : List Value) (coll : Option Collation) : Except Failure Bytes := do
  let elements ← concatKeys (encodeElement elem coll) elements
  return elements ++ 0x00 :: UInt8.ofNat dims.length ::
    (dims.zip lbounds).flatMap fun d => encodeDim d.1 d.2

/-- `ColType` (`catalog.rs:667-686`), a composite type being the types of its fields. -/
inductive ColType where
  | scalar (s : ScalarType)
  | composite (fields : List ColType)
  | array (elem : ColType)
  | range (elem : ColType)

mutual

/-- `encode_key_ct` (`access_encode.rs:5449-5477`), of a fetched value. -/
def encodeKeyCt (ct : ColType) (value : Value) (coll : Option Collation) : Except Failure Bytes :=
  match ct, value with
  | _, .null => .error (dataCorrupted "a stored key column holds NULL")
  | .composite fields, .composite vals => encodeCompositeKey fields vals
  | .range (.scalar s), .range rv => encodeRangeKey s rv
  | .array (.scalar s), .array dims lbounds elements => encodeArrayKey s dims lbounds elements coll
  | .scalar s, v => encodeKeyValue s v coll
  | _, _ => .error keyKindMismatch

/-- `encode_composite_key` (`access_encode.rs:5489-5501`). -/
def encodeCompositeKey (fields : List ColType) (vals : List Value) : Except Failure Bytes :=
  match fields, vals with
  | f :: fields, v :: vals => do
    let slot ← (match v with
      | .null => Except.ok [0x01]
      | v => (encodeKeyCt f v none).map fun key => 0x00 :: key)
    let rest ← encodeCompositeKey fields vals
    return slot ++ rest
  | _, _ => .ok []

end

/-- `encode_pk_key` (`access_encode.rs:5249-5264`): `pk` the members' ordinals. -/
def encodePkKey (pk : List Nat) (colTypes : List ColType) (colls : List (Option Collation))
    (row : List Value) : Except Failure Bytes :=
  concatKeys (fun i =>
    match colTypes[i]?, row[i]?, colls[i]? with
    | some ct, some value, some coll => encodeKeyCt ct value coll
    | _, _, _ => .error .panic) pk

end Key

end Jed
