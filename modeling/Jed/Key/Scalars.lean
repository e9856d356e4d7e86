import Jed.Key.Order

/-!
# Keys of scalars

Of two values of one scalar type, each in the range its type has, the keys code the comparison.
-/

namespace Jed.Key

open KeyCodes Positional Ranges

/-- The values a column of a keyable scalar type holds. -/
inductive Holds : ScalarType → Value → Prop where
  | int16 {n : ℤ} (h : -2 ^ 15 ≤ n ∧ n < 2 ^ 15) : Holds .int16 (.int n)
  | int32 {n : ℤ} (h : -2 ^ 31 ≤ n ∧ n < 2 ^ 31) : Holds .int32 (.int n)
  | int64 {n : ℤ} (h : -2 ^ 63 ≤ n ∧ n < 2 ^ 63) : Holds .int64 (.int n)
  | text (s : Bytes) : Holds .text (.text s)
  | bool (b : Bool) : Holds .bool (.bool b)
  | decimal {d : Decimal} (h : d.InCaps) : Holds .decimal (.decimal d)
  | bytea (b : Bytes) : Holds .bytea (.bytea b)
  | uuid {b : Bytes} (h : b.length = 16) : Holds .uuid (.uuid b)
  | timestamp {m : ℤ} (h : -2 ^ 63 ≤ m ∧ m < 2 ^ 63) : Holds .timestamp (.timestamp m)
  | timestamptz {m : ℤ} (h : -2 ^ 63 ≤ m ∧ m < 2 ^ 63) : Holds .timestamptz (.timestamptz m)
  | interval {iv : Interval} (hmonths : -2 ^ 31 ≤ iv.months ∧ iv.months < 2 ^ 31)
      (hdays : -2 ^ 31 ≤ iv.days ∧ iv.days < 2 ^ 31)
      (hmicros : -2 ^ 63 ≤ iv.micros ∧ iv.micros < 2 ^ 63) : Holds .interval (.interval iv)
  | float32 (x : BitVec 32) : Holds .float32 (.float32 x)
  | float64 (x : BitVec 64) : Holds .float64 (.float64 x)
  | date {d : ℤ} (h : -2 ^ 31 ≤ d ∧ d < 2 ^ 31) : Holds .date (.date d)

theorem ofNat_strictMonoOn : StrictMonoOn UInt8.ofNat (Set.Iio 256) := by
  intro x hx y hy h
  have hx : x < 256 := hx
  have hy : y < 256 := hy
  simp only [UInt8.lt_iff_toNat_lt, UInt8.toNat_ofNat']
  omega

theorem codes_beBytes {w m n : ℕ} (hm : m < 256 ^ w) (hn : n < 256 ^ w) :
    Codes (compare m n) (beBytes w m) (beBytes w n) :=
  (codes_digits (by decide) w hm hn).map_on ofNat_strictMonoOn (digits_lt (by decide) w m)
    (digits_lt (by decide) w n)

theorem pow_bytes {w : ℕ} (hw : 0 < w) : (256 : ℤ) ^ w = 2 * 2 ^ (w * 8 - 1) := by
  rw [← pow_succ', show w * 8 - 1 + 1 = 8 * w by omega, pow_mul]
  norm_num

/-- A signed number above its bias, in as many bytes as it needs. -/
theorem codes_biased {w : ℕ} (hw : 0 < w) (hw16 : w ≤ 16) {x y : ℤ}
    (hx : -2 ^ (w * 8 - 1) ≤ x ∧ x < 2 ^ (w * 8 - 1))
    (hy : -2 ^ (w * 8 - 1) ≤ y ∧ y < 2 ^ (w * 8 - 1)) :
    Codes (compare x y) (beBytes w ((x + 2 ^ (w * 8 - 1)) % 2 ^ 128).toNat)
      (beBytes w ((y + 2 ^ (w * 8 - 1)) % 2 ^ 128).toNat) := by
  have hbound : (2 : ℤ) * 2 ^ (w * 8 - 1) ≤ 2 ^ 128 := by
    rw [← pow_succ']
    exact pow_le_pow_right₀ (by norm_num) (by omega)
  have hbytes := pow_bytes hw
  have hlt : ∀ {z : ℤ}, -2 ^ (w * 8 - 1) ≤ z ∧ z < 2 ^ (w * 8 - 1) →
      (z + 2 ^ (w * 8 - 1)) % 2 ^ 128 = z + 2 ^ (w * 8 - 1) ∧
        (z + 2 ^ (w * 8 - 1)).toNat < 256 ^ w := by
    intro z hz
    refine ⟨Int.emod_eq_of_lt (by omega) (by omega), ?_⟩
    zify
    rw [Int.toNat_of_nonneg (by omega)]
    omega
  rw [(hlt hx).1, (hlt hy).1]
  have hcmp : compare x y
      = compare (x + 2 ^ (w * 8 - 1)).toNat (y + 2 ^ (w * 8 - 1)).toNat := by
    rw [← cmp_eq_compare, ← cmp_eq_compare]
    refine (StrictMonoOn.cmp_map_eq (s := Set.Ici (-2 ^ (w * 8 - 1)))
      (f := fun z : ℤ => (z + 2 ^ (w * 8 - 1)).toNat) ?_ hx.1 hy.1).symm
    intro a ha b hb hab
    have ha : -2 ^ (w * 8 - 1) ≤ a := ha
    show (a + 2 ^ (w * 8 - 1)).toNat < (b + 2 ^ (w * 8 - 1)).toNat
    omega
  rw [hcmp]
  exact codes_beBytes (hlt hx).2 (hlt hy).2

theorem codes_encodeInt {ty : ScalarType} (hw : 0 < widthBytes ty) {x y : ℤ}
    (hx : -2 ^ (widthBytes ty * 8 - 1) ≤ x ∧ x < 2 ^ (widthBytes ty * 8 - 1))
    (hy : -2 ^ (widthBytes ty * 8 - 1) ≤ y ∧ y < 2 ^ (widthBytes ty * 8 - 1)) :
    Codes (compare x y) (encodeInt ty x) (encodeInt ty y) :=
  codes_biased hw (by cases ty <;> decide) hx hy

theorem codes_encodeBool (x y : Bool) : Codes (compare x y) (encodeBool x) (encodeBool y) := by
  cases x <;> cases y
  · exact codes_self _
  · exact codes_lt (by decide) [] []
  · exact codes_gt (by decide) [] []
  · exact codes_self _

/-- An escaped and terminated string codes the order of its bytes. -/
theorem codes_encodeTerminated (s t : Bytes) :
    Codes (lexCompare s t) (encodeTerminated s) (encodeTerminated t) := by
  have hend : ∀ (b : UInt8) (rest : Bytes),
      Diverges (encodeTerminated []) (encodeTerminated (b :: rest)) := by
    intro b rest
    by_cases hb : b = 0x00
    · subst hb
      exact .tail _ (.head _ _ (by decide))
    · have : (0x00 : UInt8) < b := UInt8.pos_iff_ne_zero.mpr hb
      exact .head _ _ this
  induction s generalizing t with
  | nil =>
    cases t with
    | nil => exact codes_self _
    | cons b t => exact hend b t
  | cons a s ih =>
    cases t with
    | nil => exact hend a s
    | cons b t =>
      rcases lt_trichotomy a b with h | rfl | h
      · rw [lexCompare, compare_lt_iff_lt.mpr h]
        exact codes_lt h _ _
      · rw [lexCompare, compare_eq_iff_eq.mpr rfl]
        by_cases ha : a = 0x00
        · simp only [encodeTerminated, if_pos ha]
          exact (ih t).append_left [a, 0xFF]
        · simp only [encodeTerminated, if_neg ha]
          exact (ih t).append_left [a]
      · rw [lexCompare, compare_gt_iff_gt.mpr h]
        exact codes_gt h _ _

section Floats

variable (fmt : FloatFormat)

/-- A float's place in the engine's order, NaN having one too. -/
def keyPlace (x : BitVec fmt.width) : ℤ :=
  if fmt.isNaN x then (fmt.infinity + 2 ^ (fmt.fractionBits - 1) : ℕ) else fmt.place x

theorem totalCmp_eq (a b : BitVec fmt.width) :
    fmt.totalCmp a b = compare (keyPlace fmt a) (keyPlace fmt b) := by
  have hpos : 0 < 2 ^ (fmt.fractionBits - 1) := Nat.two_pow_pos _
  unfold FloatFormat.totalCmp keyPlace
  cases ha : fmt.isNaN a <;> cases hb : fmt.isNaN b
  · simpa using fmt.compare_value ha hb
  · have := (fmt.place_mem ha).2
    refine (compare_lt_iff_lt.mpr ?_).symm
    rw [if_neg (by decide), if_pos rfl, Nat.cast_add]
    omega
  · have := (fmt.place_mem hb).2
    refine (compare_gt_iff_gt.mpr ?_).symm
    rw [if_neg (by decide), if_pos rfl, Nat.cast_add]
    omega
  · exact (compare_eq_iff_eq.mpr rfl).symm

theorem nan_lt : fmt.infinity + 2 ^ (fmt.fractionBits - 1) < 2 ^ fmt.magnitudeBits := by
  have hexp : 2 ^ fmt.magnitudeBits = fmt.infinity + 2 ^ fmt.fractionBits := by
    rw [FloatFormat.infinity, Nat.sub_mul, one_mul, ← pow_add]
    have : 2 ^ fmt.fractionBits ≤ 2 ^ (fmt.exponentBits + fmt.fractionBits) :=
      Nat.pow_le_pow_right (by decide) (by omega)
    exact (Nat.sub_add_cancel this).symm
  have hhalf : 2 ^ (fmt.fractionBits - 1) < 2 ^ fmt.fractionBits :=
    Nat.pow_lt_pow_right (by decide) (by have := fmt.fraction_pos; omega)
  omega

theorem msb_eq (x : BitVec fmt.width) : x.msb = decide (2 ^ fmt.magnitudeBits ≤ x.toNat) :=
  BitVec.msb_eq_decide x

theorem toNat_eq_magnitude (x : BitVec fmt.width) :
    x.toNat = (if x.msb then 2 ^ fmt.magnitudeBits else 0) + fmt.magnitude x := by
  have hlt := x.isLt
  have hpow : 2 ^ fmt.width = 2 ^ fmt.magnitudeBits * 2 := pow_succ 2 _
  have hmsb := msb_eq fmt x
  unfold FloatFormat.magnitude
  rw [hmsb]
  by_cases h : 2 ^ fmt.magnitudeBits ≤ x.toNat
  · rw [decide_eq_true h, if_pos rfl, Nat.mod_eq_sub_mod h, Nat.mod_eq_of_lt (by omega)]
    omega
  · rw [decide_eq_false h, if_neg (by decide), Nat.mod_eq_of_lt (by omega), Nat.zero_add]

theorem magnitude_lt (x : BitVec fmt.width) : fmt.magnitude x < 2 ^ fmt.magnitudeBits :=
  Nat.mod_lt _ (Nat.two_pow_pos _)

theorem xor_two_pow {n k : ℕ} (h : n < 2 ^ k) : n ^^^ 2 ^ k = 2 ^ k + n := by
  have hdiv : (n ^^^ 2 ^ k) / 2 ^ k = 1 := by
    rw [Nat.xor_div_two_pow, Nat.div_eq_of_lt h, Nat.div_self (Nat.two_pow_pos k), Nat.zero_xor]
  have hmod : (n ^^^ 2 ^ k) % 2 ^ k = n := by
    rw [Nat.xor_mod_two_pow, Nat.mod_eq_of_lt h, Nat.mod_self, Nat.xor_zero]
  have := Nat.div_add_mod (n ^^^ 2 ^ k) (2 ^ k)
  rw [hdiv, hmod, mul_one] at this
  exact this.symm

/-- What the encoders do to the bits: all flipped under a sign, else the sign. -/
def flip (bits : BitVec fmt.width) : BitVec fmt.width :=
  bits ^^^ (if bits.msb then BitVec.allOnes _ else 1#_ <<< fmt.magnitudeBits)

theorem encodeFloat_eq (x : BitVec fmt.width) :
    encodeFloat fmt x = beBytes (fmt.width / 8) (flip fmt (fmt.canonBits x)).toNat := rfl

theorem flip_positive {x : BitVec fmt.width} (h : x.msb = false) :
    (flip fmt x).toNat = 2 ^ fmt.magnitudeBits + fmt.magnitude x := by
  have hx : x.toNat = fmt.magnitude x := by
    rw [toNat_eq_magnitude, h, if_neg (by decide), Nat.zero_add]
  have hbit : (BitVec.ofNat fmt.width 1 <<< fmt.magnitudeBits).toNat = 2 ^ fmt.magnitudeBits := by
    have hone : 1 < 2 ^ fmt.width := Nat.one_lt_two_pow (Nat.succ_ne_zero _)
    rw [BitVec.toNat_shiftLeft, BitVec.toNat_ofNat, Nat.mod_eq_of_lt hone, Nat.shiftLeft_eq, one_mul]
    exact Nat.mod_eq_of_lt (Nat.pow_lt_pow_right (by decide) (Nat.lt_succ_self _))
  rw [flip, h, if_neg (by decide), BitVec.toNat_xor, hbit, hx, xor_two_pow (magnitude_lt fmt x)]

theorem flip_negative {x : BitVec fmt.width} (h : x.msb = true) :
    (flip fmt x).toNat + 1 + fmt.magnitude x = 2 ^ fmt.magnitudeBits := by
  have hlt := magnitude_lt fmt x
  have hpow : 2 ^ fmt.width = 2 ^ fmt.magnitudeBits * 2 := pow_succ 2 _
  have hx : x.toNat = 2 ^ fmt.magnitudeBits + fmt.magnitude x := by
    rw [toNat_eq_magnitude, h, if_pos rfl]
  rw [flip, h, if_pos rfl, BitVec.xor_allOnes, BitVec.toNat_not, hx]
  omega

theorem flip_ofNat {n : ℕ} (hn : n < 2 ^ fmt.magnitudeBits) :
    (flip fmt (BitVec.ofNat fmt.width n)).toNat = 2 ^ fmt.magnitudeBits + n := by
  have hpow : 2 ^ fmt.width = 2 ^ fmt.magnitudeBits * 2 := pow_succ 2 _
  have hto : (BitVec.ofNat fmt.width n).toNat = n := by
    rw [BitVec.toNat_ofNat, Nat.mod_eq_of_lt (by omega)]
  have hmsb : (BitVec.ofNat fmt.width n).msb = false := by
    rw [msb_eq, hto]
    exact decide_eq_false (by omega)
  rw [flip_positive fmt hmsb, FloatFormat.magnitude, hto, Nat.mod_eq_of_lt hn]

/-- A float's key is its place above the half, one lower below zero. -/
theorem floatKey_toNat (x : BitVec fmt.width) :
    ((flip fmt (fmt.canonBits x)).toNat : ℤ)
      = (2 ^ fmt.magnitudeBits : ℕ) + keyPlace fmt x - if keyPlace fmt x < 0 then 1 else 0 := by
  unfold keyPlace FloatFormat.canonBits FloatFormat.quietNaN
  cases hnan : fmt.isNaN x
  · simp only [Bool.false_eq_true, if_false]
    by_cases h0 : fmt.value x = 0
    · have hplace := (fmt.value_eq_zero_iff hnan).mp h0
      have hkey := flip_ofNat fmt (Nat.two_pow_pos fmt.magnitudeBits)
      rw [if_pos h0, hplace, if_neg (lt_irrefl 0)]
      have : (0 : BitVec fmt.width) = BitVec.ofNat fmt.width 0 := rfl
      rw [this, hkey]
      omega
    · have hplace := mt (fmt.value_eq_zero_iff hnan).mpr h0
      rw [if_neg h0]
      unfold FloatFormat.place at hplace ⊢
      cases hsign : x.msb
      · have hkey := flip_positive fmt hsign
        simp only [Bool.false_eq_true, if_false]
        rw [if_neg (by omega), hkey]
        omega
      · have hkey := flip_negative fmt hsign
        rw [hsign, if_pos rfl] at hplace
        simp only [if_true]
        rw [if_pos (by omega)]
        omega
  · simp only [if_true]
    rw [flip_ofNat fmt (nan_lt fmt), if_neg (Int.natCast_nonneg _).not_gt]
    omega

/-- The bytes of floats code the engine's order of them. -/
theorem codes_encodeFloat (h8 : 8 ∣ fmt.width) (x y : BitVec fmt.width) :
    Codes (fmt.totalCmp x y) (encodeFloat fmt x) (encodeFloat fmt y) := by
  have hlt : ∀ z : BitVec fmt.width, (flip fmt (fmt.canonBits z)).toNat < 256 ^ (fmt.width / 8) := by
    intro z
    rw [show 256 = 2 ^ 8 from rfl, ← pow_mul, Nat.mul_div_cancel' h8]
    exact (flip fmt (fmt.canonBits z)).isLt
  have hcmp : fmt.totalCmp x y = 
      compare (flip fmt (fmt.canonBits x)).toNat (flip fmt (fmt.canonBits y)).toNat := by
    have hx := floatKey_toNat fmt x
    have hy := floatKey_toNat fmt y
    rw [totalCmp_eq]
    rcases lt_trichotomy (keyPlace fmt x) (keyPlace fmt y) with h | h | h
    · rw [compare_lt_iff_lt.mpr h]
      exact (compare_lt_iff_lt.mpr (by split at hx <;> split at hy <;> omega)).symm
    · rw [compare_eq_iff_eq.mpr h]
      exact (compare_eq_iff_eq.mpr (by rw [h] at hx; omega)).symm
    · rw [compare_gt_iff_gt.mpr h]
      exact (compare_gt_iff_gt.mpr (by split at hx <;> split at hy <;> omega)).symm
  rw [hcmp, encodeFloat_eq, encodeFloat_eq]
  exact codes_beBytes (hlt x) (hlt y)

end Floats

theorem codes_encodeInterval {x y : Interval} (hx : Holds .interval (.interval x))
    (hy : Holds .interval (.interval y)) :
    Codes (compare (span x) (span y)) (encodeInterval x) (encodeInterval y) := by
  have hspan : ∀ {iv : Interval}, Holds .interval (.interval iv) →
      -2 ^ (16 * 8 - 1) ≤ span iv ∧ span iv < 2 ^ (16 * 8 - 1) := by
    intro iv h
    cases h with
    | interval hmonths hdays hmicros =>
    unfold span daysPerMonth microsPerDay
    constructor
    · omega
    · omega
  exact codes_biased (by decide) le_rfl (hspan hx) (hspan hy)

end Jed.Key
