import Jed.Bytes
import Jed.Value.Decimal

/-!
# Values

A column value as the engine holds it (`value.rs`), its scalar types (`types.rs`), and how a call
ends without one.
-/

namespace Jed

/-- `SqlState`, as far as the modelled functions raise it. -/
inductive SqlState where
  | dataException
  | numericValueOutOfRange
  | dataCorrupted
  | protocolViolation
  | featureNotSupported
  | divisionByZero
  | syntaxError
  | nameTooLong
  | characterNotInRepertoire
  | invalidParameterValue
  | invalidPassword
  | credentialRequired
  | credentialNotApplicable
  | readOnlySqlTransaction
  | objectNotInPrerequisiteState
  | objectInUse
  deriving DecidableEq, Repr

/-- `EngineError`: the state, the message, and the data type it names. -/
structure EngineError where
  state : SqlState
  message : String
  dataType : Option String
  deriving DecidableEq, Repr

/-- A call that returns no value: an error, or a panic (`unreachable!`, `expect`). -/
inductive Failure where
  | error (e : EngineError)
  | panic
  deriving DecidableEq, Repr

/-- `ScalarType` (`types.rs:21-69`). -/
inductive ScalarType where
  | int16
  | int32
  | int64
  | text
  | bool
  | decimal
  | bytea
  | uuid
  | timestamp
  | timestamptz
  | interval
  | float32
  | float64
  | date
  | json
  | jsonb
  | jsonPath
  deriving DecidableEq, Repr

/-- `Interval` (`interval.rs:33-37`). -/
structure Interval where
  months : Int
  days : Int
  micros : Int
  deriving DecidableEq, Repr

/-- `RangeVal` (`value.rs:427-439`): empty, or bounded by element values, none being unbounded. -/
structure RangeVal (α : Type) where
  empty : Bool
  lower : Option α
  upper : Option α
  lowerInc : Bool
  upperInc : Bool
  deriving DecidableEq, Repr

/-- `RangeVal::empty`. -/
def RangeVal.emptyRange {α : Type} : RangeVal α := ⟨true, none, none, false, false⟩

/-- `JsonNode` (`json.rs:20-31`). -/
inductive JsonNode where
  | null
  | bool (b : Bool)
  | number (d : Decimal)
  | string (s : Bytes)
  | array (items : List JsonNode)
  | object (members : List (Bytes × JsonNode))

/-- `Value` (`value.rs:30-113`), fetched. Text is its UTF-8 bytes, a float its bits. -/
inductive Value where
  | null
  | int (n : Int)
  | bool (b : Bool)
  | float32 (bits : BitVec 32)
  | float64 (bits : BitVec 64)
  | text (s : Bytes)
  | decimal (d : Decimal)
  | bytea (b : Bytes)
  | uuid (b : Bytes)
  | timestamp (m : Int)
  | timestamptz (m : Int)
  | date (d : Int)
  | interval (iv : Interval)
  | composite (fields : List Value)
  | array (dims : List Nat) (lbounds : List Int) (elements : List Value)
  | range (r : RangeVal Value)
  | json (s : Bytes)
  | jsonb (n : JsonNode)
  | jsonPath (s : Bytes)

namespace ScalarType

/-- `ScalarType::max` (`types.rs:344-368`), of the integer types. -/
def max? : ScalarType → Option Int
  | int16 => some (2 ^ 15 - 1)
  | int32 => some (2 ^ 31 - 1)
  | int64 => some (2 ^ 63 - 1)
  | _ => none

/-- `ScalarType::canonical_name` (`types.rs:72-92`), of the types an error names. -/
def canonicalName : ScalarType → String
  | int16 => "i16"
  | int32 => "i32"
  | int64 => "i64"
  | text => "text"
  | bool => "boolean"
  | decimal => "decimal"
  | bytea => "bytea"
  | uuid => "uuid"
  | timestamp => "timestamp"
  | timestamptz => "timestamptz"
  | interval => "interval"
  | float32 => "f32"
  | float64 => "f64"
  | date => "date"
  | json => "json"
  | jsonb => "jsonb"
  | jsonPath => "jsonpath"

end ScalarType

/-- The bounds of `i32` and `i64`. -/
def i32Min : Int := -2 ^ 31
def i32Max : Int := 2 ^ 31 - 1
def i64Min : Int := -2 ^ 63
def i64Max : Int := 2 ^ 63 - 1

end Jed
