import Jed.Lib.DigitString
import Mathlib.Data.Int.Notation

/-!
# The C printf conversions of a double

`exact_digits`, `c_format_f` and `c_format_e` of `formatting_num.rs`, of a binary64 by its fields, and
`numeric_out_sci` and the layout helpers of `to_char`, each index into the digits checked.
-/

namespace Jed.Format

open DigitString

/-- A binary64 by its fields. -/
structure Float64 where
  sign : Bool
  rawExp : ℕ
  fraction : ℕ
  exp_lt : rawExp < 2048
  fraction_lt : fraction < 4503599627370496

namespace Float64

/-- `is_nan`. -/
def isNan (v : Float64) : Bool := decide (v.rawExp = 2047) && decide (v.fraction ≠ 0)

/-- `is_infinite`. -/
def isInfinite (v : Float64) : Bool := decide (v.rawExp = 2047) && decide (v.fraction = 0)

/-- The significand, with its implicit leading 1 restored. -/
def mant (v : Float64) : ℕ := if v.rawExp = 0 then v.fraction else v.fraction + 4503599627370496

/-- The exponent of the significand's last bit. -/
def exp (v : Float64) : ℤ := if v.rawExp = 0 then -1074 else (v.rawExp : ℤ) - 1075

end Float64

/-- The trailing zeros of a coefficient stripped while there is a scale (`Decimal::canonical`). -/
def canonical (coeff : ℕ) : ℕ → ℕ × ℕ
  | 0 => (coeff, 0)
  | scale + 1 => if coeff % 10 = 0 then canonical (coeff / 10) scale else (coeff, scale + 1)

/-- `Decimal::from_float64` of a magnitude: its coefficient and scale. -/
def fromFloat64 (v : Float64) : ℕ × ℕ :=
  if v.mant = 0 then (0, 0)
  else if v.exp ≥ 0 then (v.mant * 2 ^ v.exp.toNat, 0)
  else canonical (v.mant * 5 ^ (-v.exp).toNat) (-v.exp).toNat

/-- The digits of a coefficient (`mag_to_decimal_str`). -/
def digitsOf (n : ℕ) : List ℕ := if n = 0 then [0] else (Nat.digits 10 n).reverse

/-- `Decimal::canonical_digits`. -/
def canonicalDigits (coeff scale : ℕ) : List ℕ × ℕ :=
  if coeff = 0 then ([0], 0)
  else (digitsOf (canonical coeff scale).1, (canonical coeff scale).2)

/-- `exact_digits`. -/
def exactDigits (v : Float64) : List ℕ × ℕ :=
  let d := canonicalDigits (fromFloat64 v).1 (fromFloat64 v).2
  if d.1 = [0] then ([], 0) else d

/-- A digit's character. -/
def digitChar (d : ℕ) : Char := Char.ofNat (48 + d)

/-- `float_sign`. -/
def floatSign (v : Float64) : List Char := if v.sign then ['-'] else []

/-- Zeros in front, to a length. -/
def padLeft (n : ℕ) (ds : List ℕ) : List ℕ := List.replicate (n - ds.length) 0 ++ ds

/-- The digits of `round(|v| * 10^p)`, from its exact digits and scale. -/
def scaledDigits (c : List ℕ) (s p : ℕ) : List ℕ :=
  if c = [] then []
  else if s ≤ p then c ++ List.replicate (p - s) 0
  else if c.length < s - p then []
  else
    let r := roundHalfEven c (c.length - (s - p))
    if r.2 then 1 :: r.1 else r.1

/-- The digits before and after the point, of `p` fractional ones. -/
def fixedDigits (c : List ℕ) (s p : ℕ) : List ℕ × List ℕ :=
  let scaled := padLeft (p + 1) ((scaledDigits c s p).dropWhile (· = 0))
  (scaled.take (scaled.length - p), scaled.drop (scaled.length - p))

/-- The point and the digits after it, where there are any. -/
def fraction (p : ℕ) (ds : List ℕ) : List Char := if p > 0 then '.' :: ds.map digitChar else []

/-- `c_format_f`. -/
def cFormatF (v : Float64) (prec : ℕ) : List Char :=
  if v.isNan then "NaN".toList
  else if v.isInfinite then floatSign v ++ "Infinity".toList
  else
    let p := min prec 350
    let d := fixedDigits (exactDigits v).1 (exactDigits v).2 p
    floatSign v ++ (d.1.map digitChar ++ (fraction p d.2 ++ List.replicate (prec - p) '0'))

/-- The significand digits and the exponent, from the exact digits and scale. -/
def sciDigits (c : List ℕ) (s p : ℕ) : List ℕ × ℤ :=
  if c = [] then (List.replicate (p + 1) 0, 0)
  else
    let exp := (c.length : ℤ) - 1 - s
    let r := roundHalfEven c (p + 1)
    if r.2 then (1 :: r.1.take p, exp + 1) else (r.1, exp)

/-- `c_pad_int` of a value that is not negative. -/
def cPadInt (n w : ℕ) : List Char := (padLeft w (digitsOf n)).map digitChar

/-- An exponent, of two digits at least. -/
def exponent (exp : ℤ) : List Char :=
  'e' :: (if exp < 0 then '-' else '+') :: cPadInt exp.natAbs 2

/-- `c_format_e`. -/
def cFormatE (v : Float64) (prec : ℕ) (forceSign : Bool) : List Char :=
  let sign := if floatSign v = [] && forceSign then ['+'] else floatSign v
  if v.isNan then "NaN".toList
  else if v.isInfinite then sign ++ "Infinity".toList
  else
    let p := min prec 350
    let d := sciDigits (exactDigits v).1 (exactDigits v).2 p
    sign ++ ((d.1.take 1).map digitChar ++ (fraction p (d.1.drop 1) ++
      (List.replicate (prec - p) '0' ++ exponent d.2)))

/-- `&digits[..n]`. -/
def slice (ds : List ℕ) (n : ℕ) : Option (List ℕ) := if n ≤ ds.length then some (ds.take n) else none

/-- `b[i] = c`. -/
def setAt (b : List Char) (i : ℤ) (c : Char) : Option (List Char) :=
  if 0 ≤ i ∧ i < b.length then some (b.set i.toNat c) else none

/-- `vec![c; n as usize]`. -/
def filled (n : ℤ) (c : Char) : Option (List Char) :=
  if 0 ≤ n then some (List.replicate n.toNat c) else none

/-- The significand of `numeric_out_sci`, rounded half away from zero. -/
def outSciHead (digits : List ℕ) (keep : ℕ) : Option (List ℕ) :=
  if keep ≥ digits.length then some (digits ++ List.replicate (keep - digits.length) 0)
  else do
    let head ← slice digits keep
    let next ← digits[keep]?
    if next ≥ 5 then
      let r := increment head
      return if r.2 then 1 :: r.1 else r.1
    else return head

/-- The significand's text, its point before the last `scale` digits. -/
def outSciText (head : List ℕ) (scale : ℕ) : Option (List Char) :=
  if scale ≤ head.length then
    some ((head.take (head.length - scale)).map digitChar ++
      fraction scale (head.drop (head.length - scale)))
  else none

/-- `numeric_out_sci` of a decimal's canonical digits. -/
def numericOutSci (neg : Bool) (digits : List ℕ) (dscale : ℕ) (scale : ℤ) : Option (List Char) := do
  let scale := scale.toNat
  if digits = [0] then
    return '0' :: (fraction scale (List.replicate scale 0) ++ exponent 0)
  else
    let head ← outSciHead digits (scale + 1)
    let sig ← outSciText head scale
    let exp := (digits.length : ℤ) - 1 - dscale
    return (if neg then ['-'] else []) ++ (sig ++ exponent exp)

/-- The flags of a number template. -/
inductive Flag where
  | decimal | ldecimal | zero | blank | fillmode | lsign | bracket | minus | plus | roman | multi
  | plusPost | minusPost | eeee
  deriving DecidableEq

/-- `NumDesc`. -/
structure NumDesc where
  pre : ℤ := 0
  post : ℤ := 0
  lsign : ℤ := 0
  flags : List Flag := []
  preLsignNum : ℤ := 0
  multi : ℤ := 0
  zeroStart : ℤ := 0
  zeroEnd : ℤ := 0

/-- The patterns of a number template; the others change nothing. -/
inductive Pattern where
  | nine | zero | b | d | dec | fm | s | mi | pl | sg | pr | rn | v | e | other
  deriving DecidableEq

namespace NumDesc

/-- `has`. -/
def has (n : NumDesc) (f : Flag) : Bool := decide (f ∈ n.flags)

/-- A flag set. -/
def set (n : NumDesc) (f : Flag) : NumDesc := { n with flags := f :: n.flags }

/-- The pattern `9`. -/
def nine (n : NumDesc) : Option NumDesc :=
  if n.has .bracket then none
  else if n.has .multi then some { n with multi := n.multi + 1 }
  else if n.has .decimal then some { n with post := n.post + 1 }
  else some { n with pre := n.pre + 1 }

/-- The pattern `0`. -/
def zero (n : NumDesc) : Option NumDesc :=
  if n.has .bracket then none
  else
    let n := if !n.has .zero && !n.has .decimal then { n.set .zero with zeroStart := n.pre + 1 } else n
    let n := if !n.has .decimal then { n with pre := n.pre + 1 } else { n with post := n.post + 1 }
    some { n with zeroEnd := n.pre + n.post }

/-- The patterns `D` and `.`. -/
def point (n : NumDesc) (locale : Bool) : Option NumDesc :=
  let n := if locale then n.set .ldecimal else n
  if n.has .decimal || n.has .multi then none else some (n.set .decimal)

/-- The pattern `S`. -/
def sign (n : NumDesc) : Option NumDesc :=
  if n.has .lsign || (n.has .plus || n.has .minus || n.has .bracket) then none
  else if !n.has .decimal then some { n.set .lsign with lsign := -1, preLsignNum := n.pre }
  else if n.lsign = 0 then some { n.set .lsign with lsign := 1 }
  else some n

/-- The patterns `MI` and `PL`. -/
def side (n : NumDesc) (f post : Flag) : Option NumDesc :=
  if n.has .lsign then none
  else some (if (n.set f).has .decimal then (n.set f).set post else n.set f)

/-- The pattern `EEEE`. -/
def sci (n : NumDesc) : Option NumDesc :=
  if n.has .eeee || n.has .blank || n.has .fillmode || n.has .lsign || n.has .bracket || n.has .minus ||
    n.has .plus || n.has .roman || n.has .multi then none
  else some (n.set .eeee)

/-- What a pattern changes. -/
def apply (n : NumDesc) : Pattern → Option NumDesc
  | .nine => n.nine
  | .zero => n.zero
  | .b => some (if n.pre = 0 && n.post = 0 && !n.has .zero then n.set .blank else n)
  | .d => n.point true
  | .dec => n.point false
  | .fm => some (n.set .fillmode)
  | .s => n.sign
  | .mi => n.side .minus .minusPost
  | .pl => n.side .plus .plusPost
  | .sg => if n.has .lsign then none else some ((n.set .minus).set .plus)
  | .pr => if n.has .lsign || n.has .plus || n.has .minus then none else some (n.set .bracket)
  | .rn => if n.has .roman then none else some (n.set .roman)
  | .v => if n.has .decimal then none else some (n.set .multi)
  | .e => n.sci
  | .other => some n

/-- `NumDesc::prepare`; a refused pattern is `none`. -/
def prepare (n : NumDesc) (id : Pattern) : Option NumDesc :=
  if n.has .eeee && decide (id ≠ .e) then none
  else (n.apply id).bind fun n =>
    if n.has .roman && n.flags.any fun f => decide (f ≠ .roman) && decide (f ≠ .fillmode) then none
    else some n

/-- The description of a template, by its patterns. -/
def prepareAll (n : NumDesc) : List Pattern → Option NumDesc
  | [] => some n
  | id :: ids => (n.prepare id).bind fun n => n.prepareAll ids

end NumDesc

/-- `hash_fill`. -/
def hashFill (pre post : ℤ) : Option (List Char) := do
  let b ← filled (pre + post + 1) '#'
  setAt b pre '.'

/-- The fill of a float that is not finite, under EEEE. -/
def sciFill (num : NumDesc) : Option (List Char) := do
  let b ← filled (num.pre + num.post + 6) '#'
  let b ← setAt b 0 ' '
  setAt b (num.pre + 1) '.'

/-- `num_layout`: the digits, the sign and the leading spaces. -/
def numLayout (orgnum : List Char) (num : NumDesc) : Option (List Char × Char × ℤ) :=
  let sign := if orgnum.head? = some '-' then '-' else '+'
  let numstr := if orgnum.head? = some '-' then orgnum.tail else orgnum
  let preLen : ℤ := (numstr.takeWhile (· ≠ '.')).length
  if preLen < num.pre then some (numstr, sign, num.pre - preLen)
  else if preLen > num.pre then (hashFill num.pre num.post).map fun s => (s, sign, 0)
  else some (numstr, sign, 0)

/-- The fractional digits that `to_char_float` keeps. -/
def floatPost (dig preLen post : ℤ) : ℤ :=
  if preLen ≥ dig then 0 else if preLen + post > dig then dig - preLen else post

end Jed.Format
