import Mathlib.Data.Finmap
import Mathlib.Data.Finset.Sort
import Mathlib.Data.Nat.Digits.Lemmas
import Mathlib.Data.ZMod.Defs
import Mathlib.Tactic.Linarith
import Mathlib.Tactic.NormNum
import Mathlib.Tactic.Positivity
import Mathlib.Tactic.Ring

/-!
# Byte strings

Encoded keys are `Vec<u8>`, whose `Ord` is lexicographic (`pmap.rs:5-7`). Lean's order on lists
is the same order once the bytes are linearly ordered.
-/

namespace Jed

/-- The order of `u8`. Its relations are the ones `UInt8` has already. -/
instance byteLinearOrder : LinearOrder UInt8 where
  le_refl := UInt8.le_refl
  le_trans _ _ _ := UInt8.le_trans
  le_antisymm _ _ := UInt8.le_antisymm
  le_total := UInt8.le_total
  lt_iff_le_not_ge a b := by
    simp only [UInt8.lt_iff_toNat_lt, UInt8.le_iff_toNat_le]
    omega
  toDecidableLE := inferInstance
  toDecidableLT := inferInstance
  toDecidableEq := inferInstance

/-- `Vec<u8>`. -/
abbrev Bytes := List UInt8

end Jed
