import Jed.Key.Encode
import Jed.Lib.KeyCodes
import Jed.Value.Value

/-!
# The order of documents

The total order of `jsonb` (`json.rs:33-131`).
-/

namespace Jed.JsonNode

open KeyCodes

/-- `type_rank` (`json.rs:35-44`). -/
def typeRank : JsonNode → Nat
  | .null => 0
  | .string _ => 1
  | .number _ => 2
  | .bool _ => 3
  | .array _ => 4
  | .object _ => 5

/-- `JsonNode::is_scalar`. -/
def isScalar : JsonNode → Bool
  | .array _ | .object _ => false
  | _ => true

mutual

/-- `JsonNode::cmp_nested` (`json.rs:84-121`). -/
def cmpNested (a b : JsonNode) : Ordering :=
  match a, b with
  | .null, .null => .eq
  | .bool a, .bool b => compare a b
  | .number a, .number b => a.cmpValue b
  | .string a, .string b => lexCompare a b
  | .array a, .array b => (compare a.length b.length).then (itemsCmp a b)
  | .object a, .object b => (compare a.length b.length).then (membersCmp a b)
  | a, b => compare a.typeRank b.typeRank

/-- The items of two arrays, pairwise. -/
def itemsCmp : List JsonNode → List JsonNode → Ordering
  | x :: a, y :: b => (cmpNested x y).then (itemsCmp a b)
  | _, _ => .eq

/-- The members of two objects, pairwise. -/
def membersCmp : List (Bytes × JsonNode) → List (Bytes × JsonNode) → Ordering
  | (ka, va) :: a, (kb, vb) :: b =>
    ((lexCompare ka kb).then (cmpNested va vb)).then (membersCmp a b)
  | _, _ => .eq

end

/-- `JsonNode::cmp` (`json.rs:60-76`). -/
def cmp (self other : JsonNode) : Ordering :=
  match self, other with
  | .array a, .array b => cmpNested (.array a) (.array b)
  | self, .array b =>
    if self.isScalar then if b.isEmpty then .gt else .lt else cmpNested self (.array b)
  | .array a, other =>
    if other.isScalar then if a.isEmpty then .lt else .gt else cmpNested (.array a) other
  | self, other => cmpNested self other

/-- `key_cmp` (`json.rs:127-131`): the order members are stored in. -/
def keyCmp (a b : Bytes) : Ordering := (compare a.length b.length).then (lexCompare a b)

end Jed.JsonNode

/-!
## The total order of values

`value_cmp` and `key_cmp` (`executor/window.rs:1393-1421`), which `ORDER BY` sorts by.
-/

namespace Jed.Key

open KeyCodes Ranges

/-- `key_cmp` (`window.rs:1393-1421`), given how the two compare when neither is NULL. -/
def nullCmp (a b : Value) (base : Ordering) (descending nullsFirst : Bool) : Ordering :=
  match a, b with
  | .null, .null => .eq
  | .null, _ => if nullsFirst then .lt else .gt
  | _, .null => if nullsFirst then .gt else .lt
  | _, _ => if descending then base.swap else base

/-- `family_rank` (`window.rs:1506-1536`). -/
def familyRank : Value → Nat
  | .null => 0
  | .bool _ => 1
  | .int _ => 2
  | .decimal _ => 3
  | .text _ => 4
  | .bytea _ => 5
  | .uuid _ => 6
  | .timestamp _ => 6
  | .timestamptz _ => 7
  | .interval _ => 8
  | .float32 _ => 9
  | .float64 _ => 10
  | .date _ => 13
  | .composite _ => 11
  | .array .. => 12
  | .range _ => 14
  | .json _ => 15
  | .jsonb _ => 16
  | .jsonPath _ => 17

/-- A dimension's length, then its lower bound. -/
def dimCmp (a b : Nat × Int) : Ordering := (compare a.1 b.1).then (compare a.2 b.2)

mutual

/-- `value_cmp` (`window.rs:1429-1502`). -/
def valueCmp (a b : Value) : Ordering :=
  match a, b with
  | .int x, .int y => compare x y
  | .decimal x, .decimal y => x.cmpValue y
  | .text x, .text y => lexCompare x y
  | .bool x, .bool y => compare x y
  | .float32 x, .float32 y => binary32.totalCmp x y
  | .float64 x, .float64 y => binary64.totalCmp x y
  | .bytea x, .bytea y => lexCompare x y
  | .uuid x, .uuid y => lexCompare x y
  | .timestamp x, .timestamp y => compare x y
  | .timestamptz x, .timestamptz y => compare x y
  | .date x, .date y => compare x y
  | .interval x, .interval y => compare (span x) (span y)
  | .composite x, .composite y => (zipCmp x y).then (compare x.length y.length)
  | .array xDims xLbounds xElements, .array yDims yLbounds yElements =>
    (zipCmp xElements yElements).then <|
      (compare xElements.length yElements.length).then <|
        (compare xDims.length yDims.length).then <|
          listCompare dimCmp (xDims.zip xLbounds) (yDims.zip yLbounds)
  | .range x, .range y => rangeTotalCmp x y
  | .jsonb x, .jsonb y => x.cmp y
  | a, b => compare (familyRank a) (familyRank b)

/-- The fields or elements of two values, pairwise, each NULL last. -/
def zipCmp : List Value → List Value → Ordering
  | x :: xs, y :: ys => (nullCmp x y (valueCmp x y) false false).then (zipCmp xs ys)
  | _, _ => .eq

end

attribute [grind =] valueCmp

/-- `key_cmp`. -/
def keyCmp (a b : Value) (descending nullsFirst : Bool) : Ordering :=
  nullCmp a b (valueCmp a b) descending nullsFirst

end Jed.Key
