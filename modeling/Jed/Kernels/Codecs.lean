import Jed.Sql.Lexer

/-!
# Binary as text

`encode` and `decode` (`kernels.rs:385-461`, `:575-699`) over the bytes of the text: hexadecimal
digits, base64 in lines of 76 characters, and escapes.
-/

namespace Jed.Kernels

open Sql

/-- `SqlState`, as far as the kernels raise it. -/
inductive KernelState where
  | invalidParameterValue
  | invalidTextRepresentation
  | substringError
  | programLimitExceeded
  | numericValueOutOfRange
  deriving DecidableEq

/-- An error of a kernel, its texts in UTF-8. -/
structure KernelError where
  state : KernelState
  message : Bytes
  hint : Option Bytes
  dataType : Option Bytes
  deriving DecidableEq

/-- The byte of an ASCII character. -/
def ascii (c : Char) : UInt8 := UInt8.ofNat c.toNat

/-- `InvalidParameterValue`, of a message. -/
def invalidParameter (message : Bytes) : KernelError :=
  ⟨.invalidParameterValue, message, none, none⟩

/-- The character that begins a text, by its first byte. -/
def leadingChar (s : Bytes) : Bytes :=
  match s with
  | [] => []
  | lead :: _ =>
    if lead &&& 0xe0 = 0xc0 then s.take 2
    else if lead &&& 0xf0 = 0xe0 then s.take 3
    else if lead &&& 0xf8 = 0xf0 then s.take 4
    else s.take 1

/-- A digit of `{:02x}`. -/
def hexDigit (n : Nat) : UInt8 := UInt8.ofNat (if n < 10 then 48 + n else 87 + n)

def encodeHex (bytes : Bytes) : Bytes :=
  bytes.flatMap fun b => [hexDigit (b.toNat / 16), hexDigit (b.toNat % 16)]

/-- `hex_val`. -/
def hexVal (b : UInt8) : Option Nat :=
  if 48 ≤ b.toNat ∧ b.toNat ≤ 57 then some (b.toNat - 48)
  else if 97 ≤ b.toNat ∧ b.toNat ≤ 102 then some (b.toNat - 87)
  else if 65 ≤ b.toNat ∧ b.toNat ≤ 70 then some (b.toNat - 55)
  else none

/-- `invalid_hex_digit`. -/
def invalidHexDigit (s : Bytes) : KernelError :=
  invalidParameter (text "invalid hexadecimal digit: \"" ++ leadingChar s ++ text "\"")

/-- `decode_hex_pairs`. -/
def decodeHex : Bytes → Except KernelError Bytes
  | [] => .ok []
  | [b] =>
    if isBlank b then .ok []
    else
      match hexVal b with
      | none => .error (invalidHexDigit [b])
      | some _ => .error (invalidParameter (text "invalid hexadecimal data: odd number of digits"))
  | b :: c :: rest =>
    if isBlank b then decodeHex (c :: rest)
    else
      match hexVal b with
      | none => .error (invalidHexDigit (b :: c :: rest))
      | some hi =>
        match hexVal c with
        | none => .error (invalidHexDigit (c :: rest))
        | some lo => (decodeHex rest).map fun out => UInt8.ofNat (hi * 16 + lo) :: out

attribute [grind =] decodeHex

/-- `BASE64_ALPHABET`. -/
def base64Symbol (n : Nat) : UInt8 :=
  if n < 26 then UInt8.ofNat (65 + n)
  else if n < 52 then UInt8.ofNat (71 + n)
  else if n < 62 then UInt8.ofNat (n - 4)
  else if n = 62 then ascii '+'
  else ascii '/'

/-- The symbols of a group of three bytes. -/
def base64Group (a b c : UInt8) : Bytes :=
  let n := a.toNat * 65536 + b.toNat * 256 + c.toNat
  [base64Symbol (n / 262144 % 64), base64Symbol (n / 4096 % 64), base64Symbol (n / 64 % 64),
    base64Symbol (n % 64)]

/-- `base64_encode_wrapped` from the group `g` on. -/
def encodeBase64 (g : Nat) : Bytes → Bytes
  | a :: b :: c :: rest =>
    base64Group a b c ++
      ((if (g + 1) * 4 % 76 = 0 then [ascii '\n'] else []) ++ encodeBase64 (g + 1) rest)
  | [a, b] =>
    let n := a.toNat * 65536 + b.toNat * 256
    [base64Symbol (n / 262144 % 64), base64Symbol (n / 4096 % 64), base64Symbol (n / 64 % 64),
      ascii '=']
  | [a] =>
    let n := a.toNat * 65536
    [base64Symbol (n / 262144 % 64), base64Symbol (n / 4096 % 64), ascii '=', ascii '=']
  | [] => []

attribute [grind =] encodeBase64

/-- The value of a symbol. -/
def base64Val (b : UInt8) : Option Nat :=
  if 65 ≤ b.toNat ∧ b.toNat ≤ 90 then some (b.toNat - 65)
  else if 97 ≤ b.toNat ∧ b.toNat ≤ 122 then some (b.toNat - 71)
  else if 48 ≤ b.toNat ∧ b.toNat ≤ 57 then some (b.toNat + 4)
  else if is b '+' then some 62
  else if is b '/' then some 63
  else none

/-- What a full group gives, `fin` telling where its padding began. -/
def base64Bytes (buf fin : Nat) : Bytes :=
  UInt8.ofNat (buf / 65536) ::
    ((if fin = 0 ∨ fin > 1 then [UInt8.ofNat (buf / 256)] else []) ++
      (if fin = 0 ∨ fin > 2 then [UInt8.ofNat buf] else []))

/-- `end` after a `=` at `pos`. -/
def paddingAt (pos fin : Nat) : Except KernelError Nat :=
  if fin ≠ 0 then .ok fin
  else if pos = 2 then .ok 1
  else if pos = 3 then .ok 2
  else .error (invalidParameter (text "unexpected \"=\" while decoding base64 sequence"))

/-- `invalid base64 end sequence`. -/
def invalidBase64End : KernelError :=
  ⟨.invalidParameterValue, text "invalid base64 end sequence",
    some (text "Input data is missing padding, is truncated, or is otherwise corrupted."), none⟩

/-- `decode_base64`, with `pos` symbols of a group read into `buf`. -/
def decodeBase64 (buf pos fin : Nat) : Bytes → Except KernelError Bytes
  | [] => if pos ≠ 0 then .error invalidBase64End else .ok []
  | b :: rest =>
    if isBlank b then decodeBase64 buf pos fin rest
    else if is b '=' then do
      let fin ← paddingAt pos fin
      if pos + 1 = 4 then return base64Bytes (buf * 64) fin ++ (← decodeBase64 0 0 fin rest)
      else decodeBase64 (buf * 64) (pos + 1) fin rest
    else
      match base64Val b with
      | none => .error (invalidParameter (text "invalid symbol \"" ++ leadingChar (b :: rest) ++
          text "\" found while decoding base64 sequence"))
      | some v =>
        if pos + 1 = 4 then do
          return base64Bytes (buf * 64 + v) fin ++ (← decodeBase64 0 0 fin rest)
        else decodeBase64 (buf * 64 + v) (pos + 1) fin rest

attribute [grind =] decodeBase64

/-- A digit of `{:03o}`. -/
def octalDigit (n : Nat) : UInt8 := UInt8.ofNat (48 + n)

/-- The escape of a byte. -/
def escapeByte (b : UInt8) : Bytes :=
  if b = 0 then [ascii '\\', ascii '0', ascii '0', ascii '0']
  else if b = ascii '\\' then [ascii '\\', ascii '\\']
  else if 128 ≤ b.toNat then
    [ascii '\\', octalDigit (b.toNat / 64), octalDigit (b.toNat / 8 % 8), octalDigit (b.toNat % 8)]
  else [b]

def encodeEscape (bytes : Bytes) : Bytes := bytes.flatMap escapeByte

/-- `oct`. -/
def oct (b : UInt8) : Option Nat :=
  if 48 ≤ b.toNat ∧ b.toNat ≤ 55 then some (b.toNat - 48) else none

/-- `bad`. -/
def badEscape : KernelError :=
  ⟨.invalidTextRepresentation, text "invalid input syntax for type bytea", none, none⟩

/-- The value of three octal digits, of a byte. -/
def octalByte (a b c : UInt8) : Except KernelError UInt8 :=
  match oct a, oct b, oct c with
  | some a, some b, some c =>
    let v := a * 64 + b * 8 + c
    if v > 255 then .error badEscape else .ok (UInt8.ofNat v)
  | _, _, _ => .error badEscape

/-- `decode_escape`. -/
def decodeEscape : Bytes → Except KernelError Bytes
  | [] => .ok []
  | b :: rest =>
    if b ≠ ascii '\\' then (decodeEscape rest).map (b :: ·)
    else
      match rest with
      | [] => .error badEscape
      | c :: rest =>
        if c = ascii '\\' then (decodeEscape rest).map (ascii '\\' :: ·)
        else
          match rest with
          | d :: e :: rest => do return (← octalByte c d e) :: (← decodeEscape rest)
          | _ => .error badEscape

/-- `unrecognized encoding`. -/
def unrecognizedEncoding (format : Bytes) : KernelError :=
  invalidParameter (text "unrecognized encoding: \"" ++ format ++ text "\"")

/-- `encode_bytea`. -/
def encodeBytea (bytes format : Bytes) : Except KernelError Bytes :=
  if format.map lower = text "hex" then .ok (encodeHex bytes)
  else if format.map lower = text "escape" then .ok (encodeEscape bytes)
  else if format.map lower = text "base64" then .ok (encodeBase64 0 bytes)
  else .error (unrecognizedEncoding format)

/-- `decode_text`. -/
def decodeText (s format : Bytes) : Except KernelError Bytes :=
  if format.map lower = text "hex" then decodeHex s
  else if format.map lower = text "base64" then decodeBase64 0 0 0 s
  else if format.map lower = text "escape" then decodeEscape s
  else .error (unrecognizedEncoding format)

variable {n : ℕ}

theorem hexVal_hexDigit (h : n < 16) :
    isBlank (hexDigit n) = false ∧ hexVal (hexDigit n) = some n := by
  have hall : ∀ k : Fin 16,
      isBlank (hexDigit k) = false ∧ hexVal (hexDigit k) = some (k : ℕ) := by decide
  exact hall ⟨n, h⟩

theorem decodeHex_encodeHex (bytes : Bytes) : decodeHex (encodeHex bytes) = .ok bytes := by
  induction bytes with
  | nil => rfl
  | cons b bytes ih =>
    have hlt := b.toNat_lt
    obtain ⟨hblank, hhi⟩ := hexVal_hexDigit (n := b.toNat / 16) (by omega)
    obtain ⟨-, hlo⟩ := hexVal_hexDigit (n := b.toNat % 16) (by omega)
    have hb : UInt8.ofNat (b.toNat / 16 * 16 + b.toNat % 16) = b := by
      rw [Nat.div_add_mod', UInt8.ofNat_toNat]
    rw [encodeHex, List.flatMap_cons]
    show decodeHex (hexDigit (b.toNat / 16) :: hexDigit (b.toNat % 16) :: encodeHex bytes) = _
    rw [decodeHex, hblank, hhi, hlo, ih]
    exact congrArg (fun x => Except.ok (x :: bytes)) hb

theorem base64Val_symbol (h : n < 64) : isBlank (base64Symbol n) = false ∧
    is (base64Symbol n) '=' = false ∧ base64Val (base64Symbol n) = some n := by
  have hall : ∀ k : Fin 64, isBlank (base64Symbol k) = false ∧ is (base64Symbol k) '=' = false ∧
      base64Val (base64Symbol k) = some (k : ℕ) := by decide
  exact hall ⟨n, h⟩

theorem decodeBase64_symbol (h : n < 64) (buf fin : ℕ) {pos : ℕ} (hpos : pos + 1 ≠ 4) (rest : Bytes) :
    decodeBase64 buf pos fin (base64Symbol n :: rest) =
      decodeBase64 (buf * 64 + n) (pos + 1) fin rest := by
  obtain ⟨hblank, hpad, hval⟩ := base64Val_symbol h
  rw [decodeBase64, hblank, hpad, hval]
  simp [hpos]

theorem decodeBase64_last (h : n < 64) (buf fin : ℕ) (rest : Bytes) :
    decodeBase64 buf 3 fin (base64Symbol n :: rest) =
      (decodeBase64 0 0 fin rest).map (base64Bytes (buf * 64 + n) fin ++ ·) := by
  obtain ⟨hblank, hpad, hval⟩ := base64Val_symbol h
  rw [decodeBase64, hblank, hpad, hval]
  rfl

theorem ofNat_eq {b : UInt8} (h : n % 256 = b.toNat) : UInt8.ofNat n = b := by
  apply UInt8.toNat_inj.mp
  rw [UInt8.toNat_ofNat', h]

theorem decodeBase64_group (a b c : UInt8) (rest : Bytes) :
    decodeBase64 0 0 0 (base64Group a b c ++ rest) =
      (decodeBase64 0 0 0 rest).map ([a, b, c] ++ ·) := by
  have ha := a.toNat_lt
  have hb := b.toNat_lt
  have hc := c.toNat_lt
  unfold base64Group
  simp only [List.cons_append, List.nil_append]
  rw [decodeBase64_symbol (Nat.mod_lt _ (by decide)) _ _ (by decide),
    decodeBase64_symbol (Nat.mod_lt _ (by decide)) _ _ (by decide),
    decodeBase64_symbol (Nat.mod_lt _ (by decide)) _ _ (by decide),
    decodeBase64_last (Nat.mod_lt _ (by decide))]
  generalize hn : a.toNat * 65536 + b.toNat * 256 + c.toNat = n
  have hbuf :
      (((0 * 64 + n / 262144 % 64) * 64 + n / 4096 % 64) * 64 + n / 64 % 64) * 64 + n % 64 = n := by
    omega
  have hbytes : base64Bytes n 0 = [a, b, c] := by
    rw [base64Bytes, ofNat_eq (n := n / 65536) (b := a) (by omega),
      ofNat_eq (n := n / 256) (b := b) (by omega), ofNat_eq (n := n) (b := c) (by omega)]
    rfl
  rw [hbuf, hbytes]
  rfl

theorem decodeBase64_pad (fin' : ℕ) {buf pos fin : ℕ} (h : paddingAt pos fin = .ok fin')
    (hpos : pos + 1 ≠ 4) (rest : Bytes) :
    decodeBase64 buf pos fin (ascii '=' :: rest) = decodeBase64 (buf * 64) (pos + 1) fin' rest := by
  have hblank : isBlank (ascii '=') = false := by decide
  have hpad : is (ascii '=') '=' = true := by decide
  rw [decodeBase64, hblank, hpad, h]
  simp [hpos, bind, Except.bind]

theorem decodeBase64_padLast (fin' : ℕ) {buf fin : ℕ} (h : paddingAt 3 fin = .ok fin') :
    decodeBase64 buf 3 fin [ascii '='] = .ok (base64Bytes (buf * 64) fin') := by
  have hblank : isBlank (ascii '=') = false := by decide
  have hpad : is (ascii '=') '=' = true := by decide
  rw [decodeBase64, hblank, hpad, h]
  simp [bind, Except.bind, decodeBase64, pure, Except.pure]

theorem decodeBase64_encodeBase64 (g : ℕ) (bytes : Bytes) :
    decodeBase64 0 0 0 (encodeBase64 g bytes) = .ok bytes := by
  fun_induction encodeBase64 g bytes with
  | case1 g a b c rest ih =>
    rw [decodeBase64_group]
    have hline : decodeBase64 0 0 0
        ((if (g + 1) * 4 % 76 = 0 then [ascii '\n'] else []) ++ encodeBase64 (g + 1) rest) =
          decodeBase64 0 0 0 (encodeBase64 (g + 1) rest) := by
      have hblank : isBlank (ascii '\n') = true := by decide
      split
      · rw [List.singleton_append, decodeBase64, hblank, if_pos rfl]
      · rw [List.nil_append]
    rw [hline, ih]
    rfl
  | case2 g a b n =>
    have ha := a.toNat_lt
    have hb := b.toNat_lt
    rw [decodeBase64_symbol (Nat.mod_lt _ (by decide)) _ _ (by decide),
      decodeBase64_symbol (Nat.mod_lt _ (by decide)) _ _ (by decide),
      decodeBase64_symbol (Nat.mod_lt _ (by decide)) _ _ (by decide),
      decodeBase64_padLast 2 rfl]
    have hbuf :
        (((0 * 64 + n / 262144 % 64) * 64 + n / 4096 % 64) * 64 + n / 64 % 64) * 64 = n := by
      omega
    rw [hbuf, base64Bytes, ofNat_eq (n := n / 65536) (b := a) (by omega),
      ofNat_eq (n := n / 256) (b := b) (by omega)]
    rfl
  | case3 g a n =>
    have ha := a.toNat_lt
    rw [decodeBase64_symbol (Nat.mod_lt _ (by decide)) _ _ (by decide),
      decodeBase64_symbol (Nat.mod_lt _ (by decide)) _ _ (by decide),
      decodeBase64_pad 1 rfl (by decide), decodeBase64_padLast 1 rfl]
    have hbuf : ((0 * 64 + n / 262144 % 64) * 64 + n / 4096 % 64) * 64 * 64 = n := by
      omega
    rw [hbuf, base64Bytes, ofNat_eq (n := n / 65536) (b := a) (by omega)]
    rfl
  | case4 g => rfl

/-- The three digits of a byte. -/
theorem octalByte_digits (h : n < 256) :
    octalDigit (n / 64) ≠ ascii '\\' ∧
      octalByte (octalDigit (n / 64)) (octalDigit (n / 8 % 8)) (octalDigit (n % 8)) =
        .ok (UInt8.ofNat n) := by
  have hoct : ∀ k : Fin 8,
      octalDigit k ≠ ascii '\\' ∧ oct (octalDigit k) = some (k : ℕ) := by decide
  obtain ⟨hne, ha⟩ := hoct ⟨n / 64, by omega⟩
  obtain ⟨-, hb⟩ := hoct ⟨n / 8 % 8, by omega⟩
  obtain ⟨-, hc⟩ := hoct ⟨n % 8, by omega⟩
  refine ⟨hne, ?_⟩
  have hsum : n / 64 * 64 + n / 8 % 8 * 8 + n % 8 = n := by omega
  simp only at ha hb hc
  rw [octalByte, ha, hb, hc]
  simp only [hsum]
  rw [if_neg (by omega)]

theorem decodeEscape_plain {b : UInt8} (h : b ≠ ascii '\\') (rest : Bytes) :
    decodeEscape (b :: rest) = (decodeEscape rest).map (b :: ·) := by
  rw [decodeEscape.eq_def]
  exact if_pos h

theorem decodeEscape_slash (rest : Bytes) :
    decodeEscape (ascii '\\' :: ascii '\\' :: rest) =
      (decodeEscape rest).map (ascii '\\' :: ·) := by
  rw [decodeEscape.eq_def]
  rfl

theorem decodeEscape_octal {c d e v : UInt8} (h : c ≠ ascii '\\') (hv : octalByte c d e = .ok v)
    (rest : Bytes) :
    decodeEscape (ascii '\\' :: c :: d :: e :: rest) = (decodeEscape rest).map (v :: ·) := by
  rw [decodeEscape.eq_def]
  simp only [ne_eq, not_true_eq_false, if_false, h, hv]
  cases decodeEscape rest <;> rfl

theorem decodeEscape_escapeByte (b : UInt8) (rest : Bytes) :
    decodeEscape (escapeByte b ++ rest) = (decodeEscape rest).map (b :: ·) := by
  unfold escapeByte
  split
  · rename_i hzero
    subst hzero
    exact decodeEscape_octal (by decide) rfl rest
  · split
    · rename_i hslash
      subst hslash
      exact decodeEscape_slash rest
    · split
      · obtain ⟨hne, hbyte⟩ := octalByte_digits b.toNat_lt
        rw [UInt8.ofNat_toNat] at hbyte
        exact decodeEscape_octal hne hbyte rest
      · exact decodeEscape_plain ‹_› rest

theorem decodeEscape_encodeEscape (bytes : Bytes) :
    decodeEscape (encodeEscape bytes) = .ok bytes := by
  induction bytes with
  | nil => rfl
  | cons b bytes ih =>
    rw [encodeEscape, List.flatMap_cons, decodeEscape_escapeByte]
    rw [encodeEscape] at ih
    rw [ih]
    rfl

/-- Decoding in a format gives back what was encoded in it. -/
theorem decodeText_encodeBytea {format bytes s : Bytes} (h : encodeBytea bytes format = .ok s) :
    decodeText s format = .ok bytes := by
  unfold encodeBytea at h
  unfold decodeText
  split at h
  · cases h
    rw [if_pos ‹_›]
    exact decodeHex_encodeHex bytes
  · split at h
    · cases h
      rename_i hescape
      rw [if_neg ‹_›, hescape, if_neg (by decide +kernel), if_pos rfl]
      exact decodeEscape_encodeEscape bytes
    · split at h
      · cases h
        rw [if_neg ‹_›, if_pos ‹_›]
        exact decodeBase64_encodeBase64 0 bytes
      · cases h

end Jed.Kernels
