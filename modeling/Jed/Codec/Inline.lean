import Jed.Codec.Jsonb

/-!
# Stored values

The value codec: a presence tag and the body of its type (`format.rs:695-827`, `1047-1164`), and the
reader of bodies, which builds the value or only advances past it (`format.rs:7361-7675`).
-/

namespace Jed.Codec

open Readers Key Ranges

/-- `encode_nullable` (`encoding.rs:74-83`). -/
def encodeNullable (ty : ScalarType) (value : Option Int) : Except Failure Bytes :=
  match value with
  | none => .ok [0x01]
  | some v => if widthBytes ty = 0 then .error .panic else .ok (0x00 :: encodeInt ty v)

/-- `to_be_bytes` of a signed number of `w` bytes. -/
def signedBytes (w : Nat) (n : Int) : Bytes := beBytes w (n % 256 ^ w).toNat

/-- A NaN as it is stored. -/
def storedBits (fmt : FloatFormat) (x : BitVec fmt.width) : BitVec fmt.width :=
  if fmt.isNaN x then fmt.quietNaN else x

/-- A string behind its 16-bit length. -/
def encodeString (s : Bytes) : Bytes := beBytes 2 s.length ++ s

/-- `encode_scalar` (`format.rs:1048-1164`). -/
def encodeScalar (ty : ScalarType) (v : Value) : Except Failure Bytes :=
  match v with
  | .null => encodeNullable ty none
  | .int n => encodeNullable ty (some n)
  | .timestamp m | .timestamptz m => encodeNullable ty (some m)
  | .date d => encodeNullable ty (some d)
  | .text s => .ok (0x00 :: encodeString s)
  | .bytea b => .ok (0x00 :: encodeString b)
  | .uuid u => .ok (0x00 :: u)
  | .interval iv =>
    .ok (0x00 :: (signedBytes 4 iv.months ++ (signedBytes 4 iv.days ++ signedBytes 8 iv.micros)))
  | .bool b => .ok [0x00, if b then 1 else 0]
  | .float64 f => .ok (0x00 :: beBytes 8 (storedBits binary64 f).toNat)
  | .float32 f => .ok (0x00 :: beBytes 4 (storedBits binary32 f).toNat)
  | .decimal d => .ok (0x00 :: encodeDecimalBody d)
  | .composite _ | .array .. | .range _ | .jsonPath _ => .error .panic
  | .json s => .ok (0x00 :: encodeString s)
  | .jsonb n => .ok (0x00 :: encodeJsonbBody n)

/-- `matches!(v, Value::Null)`. -/
def isNull : Value → Bool
  | .null => true
  | _ => false

/-- The flags of a range that is not empty. -/
def rangeFlags (r : Range) : UInt8 :=
  (if r.lower.isNone then 0x02 else 0) ||| (if r.upper.isNone then 0x04 else 0) |||
    (if r.lowerInc then 0x08 else 0) ||| (if r.upperInc then 0x10 else 0)

/-- A value's body: what is written less the presence tag, and nothing for NULL. -/
def bodyOf (encode : Value → Except Failure Bytes) (v : Value) : Except Failure Bytes :=
  if isNull v then .ok [] else (encode v).map (·.drop 1)

/-- `encode_range_body` (`format.rs:745-769`), over the encoder of bounds. -/
def encodeRangeBodyOver (encode : Value → Except Failure Bytes) (r : Range) :
    Except Failure Bytes :=
  if r.empty then .ok [0x01]
  else do
    let bodies ← concatKeys (fun v => (encode v).map (·.drop 1)) (r.lower.toList ++ r.upper.toList)
    return rangeFlags r :: bodies

/-- A dimension of an array body. -/
def encodeArrayDim (d : Nat × Int) : Bytes := beBytes 4 d.1 ++ signedBytes 4 d.2

/-- `encode_array_body` (`format.rs:780-810`), over the encoder of elements. -/
def encodeArrayBodyOver (encode : Value → Except Failure Bytes) (dims : List Nat)
    (lbounds : List Int) (elements : List Value) : Except Failure Bytes :=
  if elements.isEmpty then .ok [0, 0]
  else if lbounds.length < dims.length then .error .panic
  else do
    let hasNulls := elements.any isNull
    let bodies ← concatKeys (bodyOf encode) elements
    return UInt8.ofNat dims.length :: (if hasNulls then 0x01 else 0x00) ::
      ((dims.zip lbounds).flatMap encodeArrayDim ++
        ((if hasNulls then nullBitmap (elements.map isNull) else []) ++ bodies))

mutual

/-- `encode_value` (`format.rs:708-737`). -/
def encodeValue (ct : ColType) (v : Value) : Except Failure Bytes :=
  match ct, v with
  | .scalar s, v => encodeScalar s v
  | _, .null => .ok [0x01]
  | .composite fields, .composite vals => do
    let bodies ← encodeFieldBodies fields vals
    return 0x00 :: (nullBitmap ((fields.zip vals).map (isNull ·.2) ++
      List.replicate (fields.length - vals.length) false) ++ bodies)
  | .array elem, .array dims lbounds elements =>
    (encodeArrayBodyOver (encodeValue elem) dims lbounds elements).map (0x00 :: ·)
  | .range elem, .range r => (encodeRangeBodyOver (encodeValue elem) r).map (0x00 :: ·)
  | _, _ => .error .panic

/-- The bodies of `encode_composite_body` (`format.rs:817-827`). -/
def encodeFieldBodies (fields : List ColType) (vals : List Value) : Except Failure Bytes :=
  match fields, vals with
  | f :: fields, v :: vals => do
    let body ← bodyOf (encodeValue f) v
    let rest ← encodeFieldBodies fields vals
    return body ++ rest
  | _, _ => .ok []

end

/-- A string behind its 16-bit length; nothing is built when skipping. -/
def readString (mode : DecodeMode) (build : Bytes → Cursor Value) : Cursor Value := do
  let len ← readU16
  let bytes ← take len
  if mode.constructs then build bytes else pure .null

/-- `decode_int` (`encoding.rs:23-32`), of the bytes of a fixed-width type. -/
def readInt (ty : ScalarType) : Cursor Int := do
  let u ← readBe (widthBytes ty)
  pure (u - 2 ^ (widthBytes ty * 8 - 1))

/-- `from_be_bytes` of a signed number of `w` bytes. -/
def readSigned (w : Nat) : Cursor Int := do
  let n ← readBe w
  pure (toSigned (8 * w) n)

/-- `read_inline_scalar` (`format.rs:7561-7671`). -/
def readInlineScalar (ty : ScalarType) (mode : DecodeMode) : Cursor Value :=
  match ty with
  | .jsonPath => throw (dataCorrupted "a stored body holds a jsonpath value")
  | .text => readString mode fun bytes => do
    let s ← fromUtf8 bytes "non-UTF-8 text value"
    pure (.text s)
  | .bool => do
    let b ← readU8
    if b = 0x00 then pure (.bool false)
    else if b = 0x01 then pure (.bool true)
    else throw (dataCorrupted "invalid boolean value byte")
  | .decimal => decodeDecimalBody mode
  | .bytea => readString mode fun bytes => pure (.bytea bytes)
  | .json => readString mode fun bytes => do
    let s ← fromUtf8 bytes "non-UTF-8 json value"
    pure (.json s)
  | .jsonb => do
    let node ← decodeJsonbBody mode
    if mode.constructs then pure (.jsonb node) else pure .null
  | .uuid => do
    let b ← take 16
    pure (.uuid b)
  | .float64 => do
    let bits ← readBe 8
    pure (.float64 (BitVec.ofNat 64 bits))
  | .float32 => do
    let bits ← readBe 4
    pure (.float32 (BitVec.ofNat 32 bits))
  | .timestamp => do
    let n ← readInt .timestamp
    pure (.timestamp n)
  | .timestamptz => do
    let n ← readInt .timestamptz
    pure (.timestamptz n)
  | .date => do
    let n ← readInt .date
    pure (.date n)
  | .interval => do
    let months ← readSigned 4
    let days ← readSigned 4
    let micros ← readSigned 8
    pure (.interval ⟨months, days, micros⟩)
  | ty => do
    let n ← readInt ty
    pure (.int n)

/-- One bound of a range body. -/
def readRangeBound (inner : Cursor Value) (mode : DecodeMode) (infinite : Bool) :
    Cursor (Option Value) :=
  if infinite then pure none
  else do
    let v ← inner
    pure (if mode.constructs then some v else none)

/-- Whether finite bounds are out of order. -/
def outOfOrder (lower upper : Option Value) (lowerInc upperInc : Bool) : Bool :=
  match lower, upper with
  | some lo, some hi =>
    elemCmp lo hi == .gt || elemCmp lo hi == .eq && !(lowerInc && upperInc)
  | _, _ => false

/-- `read_range_body` (`format.rs:7390-7442`), over the reader of bounds. -/
def readRangeBodyOver (inner : Cursor Value) (mode : DecodeMode) : Cursor Value := do
  let flags ← readU8
  if flags &&& 0xe0 ≠ 0 then throw (dataCorrupted "range flags has a reserved bit set")
  else if flags &&& 0x01 ≠ 0 then
    pure (if mode.constructs then .range .emptyRange else .null)
  else
    let lower ← readRangeBound inner mode (flags &&& 0x02 != 0)
    let upper ← readRangeBound inner mode (flags &&& 0x04 != 0)
    let lowerInc := flags &&& 0x08 != 0
    let upperInc := flags &&& 0x10 != 0
    if mode.constructs then
      if outOfOrder lower upper lowerInc upperInc then
        throw (dataCorrupted "range bounds are out of order")
      else pure (.range ⟨false, lower, upper, lowerInc, upperInc⟩)
    else pure .null

/-- The dimensions of an array body, with the number of elements: `n` so far. -/
def readDims : (ndim n : Nat) → Cursor (List (Nat × Int) × Nat)
  | 0, n => pure ([], n)
  | ndim + 1, n => do
    let len ← readU32
    let lb ← readSigned 4
    let ub := lb + len - 1
    if i32Max < ub ∨ ub < i32Min then
      throw (dataCorrupted "array dimension bounds out of range")
    else if 2 ^ 64 ≤ n * len then throw (dataCorrupted "array element count overflow")
    else
      let (dims, count) ← readDims ndim (n * len)
      pure ((len, lb) :: dims, count)

/-- What needs no reading. -/
def ofExcept {α : Type} (e : Except Failure α) : Cursor α := fun buf => e.map (·, buf)

/-- The value at a place of a bitmap: NULL, or what is read. -/
def readSlot (inner : Cursor Value) (bitmap : Bytes) (i : Nat) : Cursor Value := do
  let null ← ofExcept (nullBit bitmap i)
  if null then pure .null else inner

/-- `read_array_body` (`format.rs:7448-7517`), over the reader of elements. -/
def readArrayBodyOver (inner : Cursor Value) (mode : DecodeMode) : Cursor Value := do
  let ndim ← readU8
  let flags ← readU8
  if flags &&& 0xfe ≠ 0 then throw (dataCorrupted "array flags has a reserved bit set")
  else if ndim = 0 then pure (if mode.constructs then .array [] [] [] else .null)
  else if 6 < ndim then throw (dataCorrupted "array ndim exceeds the maximum of 6")
  else
    let (dims, n) ← readDims ndim.toNat 1
    let hasNulls := flags &&& 0x01 != 0
    let bitmap ← (if hasNulls then take ((n + 7) / 8) else pure [])
    let elements ← readEach (fun i => if hasNulls then readSlot inner bitmap i else inner)
      (List.range n)
    pure (if mode.constructs then .array (dims.map (·.1)) (dims.map (·.2)) elements else .null)

mutual

/-- `read_inline_body` (`format.rs:7358-7365`). -/
def readInlineBody (mode : DecodeMode) (ct : ColType) : Cursor Value :=
  match ct with
  | .scalar s => readInlineScalar s mode
  | .composite fields => do
    let bitmap ← take ((fields.length + 7) / 8)
    let vals ← readFields mode bitmap 0 fields
    pure (if mode.constructs then .composite vals else .null)
  | .array elem => readArrayBodyOver (readInlineBody mode elem) mode
  | .range elem => readRangeBodyOver (readInlineBody mode elem) mode

/-- The fields of `read_composite_body` (`format.rs:7523-7556`). -/
def readFields (mode : DecodeMode) (bitmap : Bytes) (i : Nat) (fields : List ColType) :
    Cursor (List Value) :=
  match fields with
  | [] => pure []
  | f :: fields => do
    let v ← readSlot (readInlineBody mode f) bitmap i
    let vs ← readFields mode bitmap (i + 1) fields
    pure (v :: vs)

end

/-- `inline_body_span` (`format.rs:7374-7382`): the bytes a skip takes. -/
def inlineBodySpan (ct : ColType) : Cursor Bytes := fun buf =>
  match readInlineBody .skip ct buf with
  | .ok (_, rest) => .ok (buf.take (buf.length - rest.length), rest)
  | .error e => .error e

end Jed.Codec
