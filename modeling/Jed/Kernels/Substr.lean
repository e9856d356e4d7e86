import Jed.Kernels.Quote

/-!
# Slices of texts

`substr`, `overlay`, `left`, `right`, `lpad` and `rpad` (`kernels.rs:10-74`, `:728-935`) over
characters or bytes, in `i64` arithmetic: `none` is a panic.
-/

namespace Jed.Kernels

open Sql

variable {α : Type}

def IsI64 (n : Int) : Prop := -2 ^ 63 ≤ n ∧ n < 2 ^ 63

instance (n : Int) : Decidable (IsI64 n) := inferInstanceAs (Decidable (_ ∧ _))

/-- A result of plain `i64` arithmetic. -/
def i64 (n : Int) : Option Int := if IsI64 n then some n else none

/-- `saturating_add`. -/
def saturatingAdd (a b : Int) : Int := max (-2 ^ 63) (min (2 ^ 63 - 1) (a + b))

/-- `[lo..hi]` of a slice. -/
def slice (s : List α) (lo hi : Int) : Option (List α) :=
  if 0 ≤ lo ∧ lo ≤ hi ∧ hi ≤ s.length then some ((s.take hi.toNat).drop lo.toNat) else none

/-- `SubstringError`. -/
def negativeLength : KernelError :=
  ⟨.substringError, text "negative substring length not allowed", none, none⟩

/-- `to`. -/
def windowEnd (n start : Int) (count : Option Int) : Option (Except KernelError Int) :=
  match count with
  | some c =>
    if c < 0 then some (.error negativeLength)
    else (i64 (n + 1)).map fun last => .ok (min (saturatingAdd start c) last)
  | none => (i64 (n + 1)).map .ok

/-- The body that `substr_chars` and `substr_bytes` share. -/
def substr (s : List α) (start : Int) (count : Option Int) :
    Option (Except KernelError (List α)) := do
  match ← windowEnd s.length start count with
  | .error e => return .error e
  | .ok last =>
    let first := max start 1
    if last ≤ first then return .ok []
    else return .ok (← slice s (first - 1) (last - 1))

/-- `substr_chars`. -/
def substrChars (s : List Char) (start : Int) (count : Option Int) := substr s start count

/-- `substr_bytes`. -/
def substrBytes (b : Bytes) (start : Int) (count : Option Int) := substr b start count

/-- `overflow(ScalarType::Int32)`. -/
def outOfInt32 : KernelError :=
  ⟨.numericValueOutOfRange, text "value out of range for type i32", none, some (text "i32")⟩

/-- `ScalarType::Int32.in_range`. -/
def inInt32 (n : Int) : Bool := decide (-2 ^ 31 ≤ n ∧ n ≤ 2 ^ 31 - 1)

/-- `overlay_tail_start`. -/
def overlayTailStart (start count : Int) : Except KernelError Int :=
  if start ≤ 0 then .error negativeLength
  else
    match i64 (start + count) with
    | some t => if inInt32 t then .ok t else .error outOfInt32
    | none => .error outOfInt32

/-- The body that `overlay_chars` and `overlay_bytes` share. -/
def overlay (s r : List α) (start count : Int) : Option (Except KernelError (List α)) := do
  match overlayTailStart start count with
  | .error e => return .error e
  | .ok tail =>
    match ← substr s 1 (some (← i64 (start - 1))) with
    | .error e => return .error e
    | .ok before =>
      match ← substr s tail none with
      | .error e => return .error e
      | .ok after => return .ok (before ++ r ++ after)

/-- `overlay_chars`, for as many characters as `r` has where no count is given. -/
def overlayChars (s r : List Char) (start : Int) (count : Option Int) :=
  overlay s r start (count.getD r.length)

/-- `overlay_bytes`, for as many bytes as `r` has where no count is given. -/
def overlayBytes (b r : Bytes) (start : Int) (count : Option Int) :=
  overlay b r start (count.getD r.length)

/-- `left_chars`. -/
def leftChars (s : List Char) (n : Int) : Option (List Char) :=
  let len : Int := s.length
  slice s 0 (if n < 0 then max (saturatingAdd len n) 0 else min n len)

/-- `right_chars`. -/
def rightChars (s : List Char) (n : Int) : Option (List Char) := do
  let len : Int := s.length
  -- The least `i64` has no negation: it skips everything.
  let start ←
    if n < 0 then some (min ((i64 (-n)).getD (2 ^ 63 - 1)) len)
    else (i64 (len - n)).map (max · 0)
  slice s start len

/-! ### Padding -/

def MAX_RESULT_CHARS : Int := 0x3FFFFFFF

/-- `ProgramLimitExceeded`. -/
def lengthTooLarge : KernelError :=
  ⟨.programLimitExceeded, text "requested length too large", none, none⟩

/-- The `len` of a text. -/
def utf8Len (s : List Char) : Int := ((s.map Char.utf8Size).sum : Nat)

/-- The text before `text_prefix_bytes`. -/
def textPrefix (s : List Char) (chars : Int) : List Char := s.take chars.toNat

/-- `cycles` and the text before `tail`, for `need` more characters. -/
def padding (size need : Int) (fill : List Char) : Option (Except KernelError (Int × List Char)) :=
  if need > 0 ∧ fill ≠ [] then do
    let cycles := need.tdiv fill.length
    let tail := textPrefix fill (need.tmod fill.length)
    let room ← i64 (MAX_RESULT_CHARS - size - utf8Len tail)
    if cycles > room.tdiv (utf8Len fill) then return .error lengthTooLarge
    else return .ok (cycles, tail)
  else some (.ok (0, []))

/-- The end of `pad_chars`. -/
def padFilled (kept filled : List Char) (size : Int) (left : Bool) : Except KernelError (List Char) :=
  if size > MAX_RESULT_CHARS then .error lengthTooLarge
  else .ok (if left then filled ++ kept else kept ++ filled)

/-- `pad_chars`. -/
def padChars (s : List Char) (len : Int) (fill : List Char) (left : Bool) :
    Option (Except KernelError (List Char)) := do
  if len > MAX_RESULT_CHARS then return .error lengthTooLarge
  else if len ≤ 0 then return .ok []
  else
    let kept := textPrefix s len
    match ← padding (utf8Len kept) (← i64 (len - kept.length)) fill with
    | .error e => return .error e
    | .ok (cycles, tail) =>
      let size ← i64 (utf8Len kept + cycles * utf8Len fill + utf8Len tail)
      return padFilled kept ((List.replicate cycles.toNat fill).flatten ++ tail) size left

/-- `lpad`, with spaces where no fill is given. -/
def lpad (s : List Char) (len : Int) (fill : Option (List Char)) :=
  padChars s len (fill.getD [' ']) true

/-- `rpad`, with spaces where no fill is given. -/
def rpad (s : List Char) (len : Int) (fill : Option (List Char)) :=
  padChars s len (fill.getD [' ']) false

end Jed.Kernels
