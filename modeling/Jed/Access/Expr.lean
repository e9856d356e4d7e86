import Jed.Lib.Results
import Jed.Value.Value

/-!
# Comparison operators and the connectives

The operators that a bound reads of a predicate, and the connectives and tests over the values of its parts
(`value.rs:2012-2023`).
-/

namespace Jed.Access

open Results

/-- `CmpOp`. -/
inductive CmpOp where
  | eq
  | ne
  | lt
  | gt
  | le
  | ge
  deriving DecidableEq

/-- The one-dimensional array of a quantified subquery's column. -/
def arrayOf (elements : List Value) : Value :=
  if elements.isEmpty then .array [] [] [] else .array [elements.length] [1] elements

/-- A row by its slots. -/
abbrev Row := Nat → Value

/-- `and3` (`value.rs:2012-2018`). -/
def and3 : Value → Value → Value
  | .bool false, _ => .bool false
  | _, .bool false => .bool false
  | .bool true, .bool true => .bool true
  | _, _ => .null

/-- `or3` (`value.rs:2021-2023`). -/
def or3 : Value → Value → Value
  | .bool true, _ => .bool true
  | _, .bool true => .bool true
  | .bool false, .bool false => .bool false
  | _, _ => .null

/-- `Value::is_true`. -/
def isTrue : Value → Bool
  | .bool true => true
  | _ => false

theorem isTrue_iff {v : Value} : isTrue v = true ↔ v = .bool true := by
  constructor
  · intro h
    unfold isTrue at h
    split at h
    · rfl
    · cases h
  · rintro rfl
    rfl

theorem and3_true {a b : Value} (h : and3 a b = .bool true) : a = .bool true ∧ b = .bool true := by
  unfold and3 at h
  split at h <;> first | exact ⟨rfl, rfl⟩ | cases h

theorem or3_true {a b : Value} (h : or3 a b = .bool true) : a = .bool true ∨ b = .bool true := by
  unfold or3 at h
  split at h <;> first | exact .inl rfl | exact .inr rfl | cases h

end Jed.Access
