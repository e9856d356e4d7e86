import Jed.Codec.Read

/-!
# Stored numbers

The decimal body (`format.rs:892-905`, `7682-7703`) and the varints of `jsonb`
(`format.rs:857-890`).
-/

namespace Jed.Codec

open Readers Key

/-- `DecodeMode` (`format.rs:7297-7311`): build the value, or only advance past it. -/
inductive DecodeMode where
  | construct
  | skip
  deriving DecidableEq, Repr

/-- `DecodeMode::constructs`. -/
def DecodeMode.constructs : DecodeMode → Bool
  | .construct => true
  | .skip => false

@[simp] theorem DecodeMode.constructs_construct : DecodeMode.construct.constructs = true := rfl
/-- `Decimal::to_codec` (`decimal.rs:607-609`): the coefficient in base 10⁴. -/
def toCodec (d : Decimal) : Bool × Nat × List Nat :=
  (d.neg, d.scale, (Nat.digits 10000 d.coeff).reverse)

/-- `Decimal::from_codec` (`decimal.rs:626-629`). -/
def fromCodec (neg : Bool) (scale : Nat) (groups : List Nat) : Decimal :=
  let coeff := groups.foldl (fun n g => n * 10000 + g) 0
  ⟨neg && coeff != 0, scale, coeff, fun h => by simpa using And.right (by simpa using h)⟩

/-- `encode_decimal_body`. -/
def encodeDecimalBody (d : Decimal) : Bytes :=
  let (neg, scale, groups) := toCodec d
  (if neg then 1 else 0) :: (beBytes 2 scale ++ (beBytes 2 groups.length ++ groups.flatMap (beBytes 2)))

/-- One group of a decimal body. -/
def decodeGroup : Cursor Nat := do
  let g ← readU16
  if 9999 < g then throw (dataCorrupted "decimal digit group out of range") else pure g

/-- `decode_decimal_body`. -/
def decodeDecimalBody (mode : DecodeMode) : Cursor Value := do
  let flags ← readU8
  let scale ← readU16
  let ndigits ← readU16
  let groups ← readEach (fun _ => decodeGroup) (List.range ndigits)
  if mode.constructs then pure (.decimal (fromCodec (flags &&& 1 != 0) scale groups)) else pure .null

theorem fromCodec_toCodec (d : Decimal) :
    fromCodec (toCodec d).1 (toCodec d).2.1 (toCodec d).2.2 = d := by
  have hfold : ∀ ds : List ℕ, ds.reverse.foldl (fun n g => n * 10000 + g) 0 = Nat.ofDigits 10000 ds := by
    intro ds
    induction ds with
    | nil => rfl
    | cons x ds ih =>
      rw [List.reverse_cons, List.foldl_append, ih, Nat.ofDigits_cons]
      simp only [List.foldl_cons, List.foldl_nil]
      ring
  have hcoeff : (toCodec d).2.2.foldl (fun n g => n * 10000 + g) 0 = d.coeff := by
    rw [toCodec, hfold, Nat.ofDigits_digits]
  have hneg : (d.neg && d.coeff != 0) = d.neg := by
    cases hn : d.neg
    · rfl
    · simpa using d.sign hn
  unfold fromCodec
  simp only [hcoeff]
  cases d
  simp only [toCodec, Decimal.mk.injEq, and_true]
  exact hneg

/-- Within the caps a decimal's groups are counted in 16 bits. -/
theorem toCodec_groups_lt {d : Decimal} (h : d.InCaps) : (toCodec d).2.2.length < 256 ^ 2 := by
  have hprec : d.precision ≤ 4 * 36864 := by
    obtain ⟨hint, hscale⟩ := h
    unfold Decimal.maxIntDigits at hint
    unfold Decimal.maxScale at hscale
    omega
  have hlen : ∀ k, d.precision ≤ 4 * k → (Nat.digits 10000 d.coeff).length ≤ k := by
    intro k hk
    have hlt : d.coeff < 10 ^ d.precision := Nat.lt_base_pow_length_digits (by decide)
    refine (Nat.digits_length_le_iff (by decide) _).mpr (hlt.trans_le ?_)
    rw [show 10000 = 10 ^ 4 by norm_num, ← pow_mul]
    exact Nat.pow_le_pow_right (by decide) hk
  rw [toCodec, List.length_reverse]
  have := hlen 36864 hprec
  omega

theorem reads_decodeDecimalBody {d : Decimal} (h : d.InCaps) :
    Reads (decodeDecimalBody .construct) (encodeDecimalBody d) (.decimal d) := by
  have hscale : (toCodec d).2.1 < 256 ^ 2 := by
    have := h.2
    unfold Decimal.maxScale at this
    show d.scale < 256 ^ 2
    omega
  have hgroup : ∀ g ∈ (toCodec d).2.2, Reads decodeGroup (beBytes 2 g) g := by
    intro g hg
    have hlt : g < 10000 := Nat.digits_lt_base (by decide) (List.mem_reverse.mp hg)
    refine (reads_readBe (w := 2) (by omega)).check ?_
    rw [if_neg (by omega)]
    exact Reads.pure g
  have hflags : ((if d.neg then 1 else 0 : UInt8) &&& 1 != 0) = d.neg := by
    cases d.neg <;> decide
  refine (reads_readU8 _).bind ((reads_readBe hscale).bind ?_)
  refine (reads_readBe (toCodec_groups_lt h)).bind ((Reads.times hgroup).check ?_)
  have hround : fromCodec d.neg (toCodec d).2.1 (toCodec d).2.2 = d := fromCodec_toCodec d
  rw [DecodeMode.constructs_construct, if_pos rfl, hflags, hround]
  exact Reads.pure _

theorem sound_decodeDecimalBody (mode : DecodeMode) :
    Sound IsCorrupt (decodeDecimalBody mode) fun v => v = .null ∨ ∃ d, v = .decimal d := by
  refine sound_readU8.bind fun flags _ => (sound_readBe 2).bind fun scale _ => ?_
  refine (sound_readBe 2).bind fun ndigits _ => ?_
  have hgroup : Sound IsCorrupt decodeGroup fun _ => True := by
    refine (sound_readBe 2).bind fun g _ => ?_
    split
    · exact Sound.throw (isCorrupt _)
    · exact Sound.pure trivial
  refine (Sound.each fun _ _ => hgroup).bind fun groups _ => ?_
  cases mode with
  | construct => exact Sound.pure (.inr ⟨_, rfl⟩)
  | skip => exact Sound.pure (.inl rfl)

theorem lockstep_decodeDecimalBody :
    Lockstep (fun _ _ => True) (decodeDecimalBody .construct) (decodeDecimalBody .skip) := by
  refine (Lockstep.refl readU8).bind fun _ _ _ => (Lockstep.refl readU16).bind fun _ _ _ => ?_
  refine (Lockstep.refl readU16).bind fun n _ h => ?_
  subst h
  exact (Lockstep.refl _).bind fun _ _ _ => Lockstep.pure trivial

/-- `write_uvarint`. -/
def writeUvarint (v : Nat) : Bytes :=
  if v / 128 = 0 then [UInt8.ofNat (v % 128)]
  else (UInt8.ofNat (v % 128) ||| 0x80) :: writeUvarint (v / 128)
termination_by v

/-- The loop of `read_uvarint`, from a result and a shift on. -/
def readUvarintFrom (result shift : Nat) : Cursor Nat := do
  let byte ← readU8
  if h : 64 ≤ shift ∨ shift = 63 ∧ 1 < byte then throw (dataCorrupted "jsonb varint overflows u64")
  else
    let result := result ||| (byte &&& 0x7f).toNat <<< shift
    if byte &&& 0x80 = 0 then pure result else readUvarintFrom result (shift + 7)
termination_by 64 - shift

/-- `read_uvarint`. -/
def readUvarint : Cursor Nat := readUvarintFrom 0 0

theorem byte_low {n : ℕ} (h : n < 128) :
    (UInt8.ofNat n &&& 0x7f).toNat = n ∧ UInt8.ofNat n &&& 0x80 = 0 ∧
      ((UInt8.ofNat n ||| 0x80) &&& 0x7f).toNat = n ∧ (UInt8.ofNat n ||| 0x80) &&& 0x80 ≠ 0 := by
  have hall : ∀ k : Fin 128, (UInt8.ofNat k &&& 0x7f).toNat = k ∧ UInt8.ofNat k &&& 0x80 = 0 ∧
      ((UInt8.ofNat k ||| 0x80) &&& 0x7f).toNat = k ∧ (UInt8.ofNat k ||| 0x80) &&& 0x80 ≠ 0 := by
    decide
  exact hall ⟨n, h⟩

/-- Septets on top of those read already. -/
theorem reads_uvarintFrom (v : ℕ) : ∀ {result shift : ℕ}, result < 2 ^ shift →
    v * 2 ^ shift < 2 ^ 64 → shift < 64 → 7 ∣ shift →
    Reads (readUvarintFrom result shift) (writeUvarint v) (result + v * 2 ^ shift) := by
  induction v using Nat.strong_induction_on with
  | _ v ih =>
  intro result shift hresult hv hshift h7
  have hlow := byte_low (Nat.mod_lt v (show 0 < 128 by decide))
  have hor : ∀ k, result ||| k <<< shift = result + k * 2 ^ shift := by
    intro k
    rw [Nat.or_comm, ← Nat.shiftLeft_add_eq_or_of_lt hresult, Nat.shiftLeft_eq, Nat.add_comm]
  rw [writeUvarint, readUvarintFrom]
  by_cases hlast : v / 128 = 0
  · have hvlt : v < 128 := by omega
    have hmod : v % 128 = v := Nat.mod_eq_of_lt hvlt
    have hok : ¬(64 ≤ shift ∨ shift = 63 ∧ 1 < UInt8.ofNat (v % 128)) := by
      rintro (h | ⟨rfl, hbyte⟩)
      · omega
      · rw [UInt8.lt_iff_toNat_lt, UInt8.toNat_ofNat', hmod] at hbyte
        have : (1 : UInt8).toNat = 1 := rfl
        omega
    rw [if_pos hlast]
    refine (reads_readU8 _).check ?_
    rw [dif_neg hok, if_pos hlow.2.1, hlow.1, hor, hmod]
    exact Reads.pure _
  · have hok : ¬(64 ≤ shift ∨ shift = 63 ∧ 1 < (UInt8.ofNat (v % 128) ||| 0x80)) := by
      rintro (h | ⟨rfl, -⟩)
      · omega
      · omega
    have hdiv : v / 128 < v := Nat.div_lt_self (by omega) (by decide)
    have hsplit : v * 2 ^ shift = v % 128 * 2 ^ shift + v / 128 * 2 ^ (shift + 7) := by
      rw [pow_add]
      nth_rewrite 1 [← Nat.mod_add_div v 128]
      ring
    have hnext : shift + 7 < 64 := by
      by_contra hge
      have hpow : 2 ^ 64 ≤ 2 ^ (shift + 7) := Nat.pow_le_pow_right (by decide) (not_lt.mp hge)
      have := Nat.mul_le_mul (Nat.one_le_iff_ne_zero.mpr hlast) hpow
      omega
    have hresult' : result + v % 128 * 2 ^ shift < 2 ^ (shift + 7) := by
      have hmod : v % 128 + 1 ≤ 128 := Nat.mod_lt v (by decide)
      have := Nat.mul_le_mul_right (2 ^ shift) hmod
      rw [Nat.add_mul, one_mul] at this
      rw [pow_add]
      omega
    rw [if_neg hlast]
    refine Reads.bind (b := [_]) (reads_readU8 _) ?_
    rw [dif_neg hok, if_neg hlow.2.2.2, hlow.2.2.1, hor, hsplit, ← Nat.add_assoc]
    exact ih (v / 128) hdiv hresult' (by omega) hnext (h7.add (dvd_refl 7))

theorem reads_readUvarint {v : ℕ} (h : v < 2 ^ 64) : Reads readUvarint (writeUvarint v) v := by
  have := @reads_uvarintFrom v 0 0 (by decide) (by simpa using h) (by decide) (by decide)
  simpa [readUvarint] using this

theorem sound_readUvarint : Sound IsCorrupt readUvarint fun _ => True := by
  have hfrom : ∀ (n result shift : ℕ), 64 - shift ≤ n →
      Sound IsCorrupt (readUvarintFrom result shift) fun _ => True := by
    intro n
    induction n with
    | zero =>
      intro result shift h
      rw [readUvarintFrom]
      refine sound_readU8.bind fun byte _ => ?_
      rw [dif_pos (.inl (by omega))]
      exact Sound.throw (isCorrupt _)
    | succ n ih =>
      intro result shift h
      rw [readUvarintFrom]
      refine sound_readU8.bind fun byte _ => ?_
      split
      · exact Sound.throw (isCorrupt _)
      · split
        · exact Sound.pure trivial
        · exact ih _ _ (by omega)
  exact hfrom 64 0 0 le_rfl

end Jed.Codec
