import Jed.Value.Value

/-!
# The SQL lexer

`lex` and `lex_raw` (`lexer.rs`), over the bytes of the text. A scan function is given the bytes
from the lexeme's start on and answers how many of them it takes.
-/

namespace Jed.Sql

/-- `Token` (`token.rs`). -/
inductive Token where
  | word (w : Bytes)
  | int (n : ℕ)
  | str (s : Bytes)
  | quotedIdent (s : Bytes)
  | decimal (digits : Bytes) (scale : ℕ)
  | param (n : ℕ)
  | comma
  | dot
  | lParen
  | rParen
  | lBracket
  | rBracket
  | star
  | plus
  | minus
  | slash
  | percent
  | eq
  | ne
  | lt
  | gt
  | le
  | ge
  | doubleColon
  | colon
  | fatArrow
  | concat
  | arrow
  | arrowText
  | hashArrow
  | hashArrowText
  | question
  | questionPipe
  | questionAmp
  | hashMinus
  | contains
  | jsonPathExists
  | jsonPathMatch
  | containedBy
  | overlaps
  | strictlyLeft
  | strictlyRight
  | notExtendRight
  | notExtendLeft
  | adjacent
  | tilde
  | tildeStar
  | bangTilde
  | bangTildeStar
  | eof
  deriving DecidableEq

/-- An error of the lexer, its texts in UTF-8. -/
structure LexError where
  state : SqlState
  message : Bytes
  hint : Option Bytes
  deriving DecidableEq

/-- The bytes of a text. -/
def text (s : String) : Bytes := s.toUTF8.toList

/-- `syntax`. -/
def syntaxAt (message : Bytes) : LexError := ⟨.syntaxError, message, none⟩

/-- `MAX_IDENTIFIER_LENGTH` (`parser.rs:59`), `MAX_PARAM_INDEX`, `EXP_LIMIT` (`decimal.rs:37`). -/
def MAX_IDENTIFIER_LENGTH : ℕ := 63
def MAX_PARAM_INDEX : ℕ := 65535
def EXP_LIMIT : ℤ := 131072 + 16383 + 2

/-- `name_too_long`. -/
def nameTooLong : LexError :=
  ⟨.nameTooLong, text "identifier exceeds the maximum length of 63 bytes", none⟩

/-- The byte is this character. -/
def is (b : UInt8) (c : Char) : Bool := b.toNat == c.toNat

def isBlank (b : UInt8) : Bool := is b ' ' || is b '\t' || is b '\r' || is b '\n'

/-- The end of a line comment. -/
def isEol (b : UInt8) : Bool := is b '\n' || is b '\r'

def isDigit (b : UInt8) : Bool := '0'.toNat ≤ b.toNat && b.toNat ≤ '9'.toNat

def isAlpha (b : UInt8) : Bool :=
  'A'.toNat ≤ b.toNat && b.toNat ≤ 'Z'.toNat || 'a'.toNat ≤ b.toNat && b.toNat ≤ 'z'.toNat

/-- A byte of a bare word after its first. -/
def isWordByte (b : UInt8) : Bool := isAlpha b || isDigit b || is b '_'

/-- `char::to_digit`. -/
def toDigit (base : ℕ) (b : UInt8) : Option ℕ :=
  let d :=
    if isDigit b then some (b.toNat - '0'.toNat)
    else if isAlpha b then some (b.toNat % 32 + 9)
    else none
  d.filter (· < base)

/-- `ident_start`. -/
def identStart (b : UInt8) : Bool := isAlpha b || is b '_' || 0x80 ≤ b.toNat

/-- `ident_len` of the bytes from `p` on. -/
def identLen : Bytes → ℕ
  | [] => 0
  | b :: rest =>
    if identStart b then
      1 + (rest.takeWhile fun b => identStart b || isDigit b || is b '$').length
    else 0

/-- A digit of this base. -/
def isDigitOf (base : ℕ) (b : UInt8) : Bool := (toDigit base b).isSome

/-- The bytes `digit_run_end` passes over, an underscore before a digit one of them. -/
def digitRun (base : ℕ) : Bytes → ℕ
  | [] => 0
  | b :: rest =>
    if isDigitOf base b || is b '_' && rest.head?.any (isDigitOf base) then 1 + digitRun base rest
    else 0

/-- `strip_underscores`. -/
def stripUnderscores (s : Bytes) : Bytes := s.filter fun b => !is b '_'

/-- `integer_magnitude`. -/
def integerMagnitude (written digits : Bytes) (base : ℕ) : Except LexError ℕ :=
  (stripUnderscores digits).foldlM (fun n b =>
    let n := n * base + (toDigit base b).getD 0
    if n ≤ 2 ^ 63 then .ok n
    else .error (syntaxAt (text "integer literal out of range: " ++ written))) 0

/-- `decimal_from_parts` (`decimal.rs:47-63`). -/
def decimalFromParts (intPart frac : Bytes) (exp : Option ℤ) : Bytes × ℕ :=
  match exp with
  | none => (intPart ++ frac, frac.length)
  | some exp =>
    let effScale := (frac.length : ℤ) - exp
    if effScale ≥ 0 then (intPart ++ frac, effScale.toNat)
    else (intPart ++ frac ++ List.replicate (-effScale).toNat 48, 0)

/-- The error of what is glued to a number that ends before `e`. -/
def junk (s : Bytes) (e : ℕ) : LexError :=
  syntaxAt (text "trailing junk after numeric literal at or near \"" ++ s.take e ++ text "\"")

/-- The base a `0` is followed by, and its name. -/
def radixOf (b : UInt8) : Option (ℕ × String) :=
  if is b 'x' || is b 'X' then some (16, "hexadecimal")
  else if is b 'o' || is b 'O' then some (8, "octal")
  else if is b 'b' || is b 'B' then some (2, "binary")
  else none

/-- The radix integers of `scan_number`. -/
def scanRadix (s : Bytes) (base : ℕ) (name : String) : Except LexError (Token × ℕ) :=
  let fin := 2 + digitRun base (s.drop 2)
  let junkEnd := 1 + identLen (s.drop 1)
  if fin > 2 then
    if junkEnd > fin then .error (junk s junkEnd)
    else do
      let n ← integerMagnitude (s.take fin) ((s.take fin).drop 2) base
      return (.int n, fin)
  else
    let failEnd := 2 + if is (s.getD 2 0) '_' then 1 else 0
    if junkEnd > failEnd then .error (junk s junkEnd)
    else .error (syntaxAt (text "invalid " ++ text name ++ text " integer at or near \"" ++
      s.take failEnd ++ text "\""))

/-- The exponent of `scan_number` at `e`: where it ends, and its value. -/
def scanExponent (s : Bytes) (e : ℕ) : Except LexError (ℕ × Option ℤ) :=
  if is (s.getD e 0) 'e' || is (s.getD e 0) 'E' then
    let neg := is (s.getD (e + 1) 0) '-'
    let signed := neg || is (s.getD (e + 1) 0) '+'
    let digitsStart := e + 1 + if signed then 1 else 0
    if isDigit (s.getD digitsStart 0) then
      let expEnd := digitsStart + digitRun 10 (s.drop digitsStart)
      let v := (stripUnderscores ((s.take expEnd).drop digitsStart)).foldl (fun v b =>
        if v < EXP_LIMIT then min (v * 10 + (b.toNat - '0'.toNat : ℤ)) EXP_LIMIT else v) 0
      .ok (expEnd, some (if neg then -v else v))
    else if signed then .error (junk s digitsStart)
    else .ok (e, none)
  else .ok (e, none)

/-- The fraction of `scan_number` at `intEnd`: where it ends, and its digits. -/
def scanFraction (s : Bytes) (intEnd : ℕ) : ℕ × Option Bytes :=
  if is (s.getD intEnd 0) '.' then
    let fracStart := intEnd + 1
    let e :=
      if isDigit (s.getD fracStart 0) then fracStart + digitRun 10 (s.drop fracStart) else fracStart
    (e, some ((s.take e).drop fracStart))
  else (intEnd, none)

/-- Where the integer part of a number ends. -/
def intEnd (s : Bytes) : ℕ := if isDigit (s.getD 0 0) then digitRun 10 s else 0

/-- The end of `scan_number`: nothing is glued to the number, and its token. -/
def finishNumber (s : Bytes) (e : ℕ) (frac : Option Bytes) (exp : Option ℤ) :
    Except LexError (Token × ℕ) :=
  let glued := identLen (s.drop e)
  if glued > 0 then .error (junk s (e + glued))
  else
    let intPart := stripUnderscores (s.take (intEnd s))
    if frac.isNone && exp.isNone then do
      let n ← integerMagnitude (s.take e) intPart 10
      return (.int n, e)
    else
      let (digits, scale) := decimalFromParts intPart (stripUnderscores (frac.getD [])) exp
      .ok (.decimal digits scale, e)

/-- The decimal numbers of `scan_number`. -/
def scanDecimal (s : Bytes) : Except LexError (Token × ℕ) :=
  if is (s.getD (intEnd s) 0) '.' && is (s.getD (intEnd s + 1) 0) '.' then do
    let n ← integerMagnitude (s.take (intEnd s)) (s.take (intEnd s)) 10
    return (.int n, intEnd s)
  else do
    let (e, frac) := scanFraction s (intEnd s)
    let (e, exp) ← scanExponent s e
    finishNumber s e frac exp

/-- `scan_number`. -/
def scanNumber (s : Bytes) : Except LexError (Token × ℕ) :=
  match if is (s.getD 0 0) '0' then radixOf (s.getD 1 0) else none with
  | some (base, name) => scanRadix s base name
  | none => scanDecimal s

/-- The rest of a block comment open `depth` deep; none when the input ends first. -/
def scanBlock : ℕ → Bytes → Option ℕ
  | 0, _ => some 0
  | _ + 1, [] => none
  | _ + 1, [_] => none
  | depth + 1, b :: b' :: rest =>
    if is b '/' && is b' '*' then (scanBlock (depth + 2) rest).map (2 + ·)
    else if is b '*' && is b' '/' then (scanBlock depth rest).map (2 + ·)
    else (scanBlock (depth + 1) (b' :: rest)).map (1 + ·)

/-- `scan_quoted_body`: what stands between the quotes, and how many bytes it takes with the closing
one. -/
def scanQuotedBody (quote : UInt8) : Bytes → Option (Bytes × ℕ)
  | [] => none
  | [b] => if b == quote then some ([], 1) else none
  | b :: b' :: rest =>
    if b == quote then
      if b' == quote then (scanQuotedBody quote rest).map fun (buf, n) => (quote :: buf, 2 + n)
      else some ([], 1)
    else (scanQuotedBody quote (b' :: rest)).map fun (buf, n) => (b :: buf, 1 + n)

/-- The operators by their first byte: the longer ones in the order they are tried, and the token of
the byte alone. -/
def operators : List (Char × List (List Char × Token) × Option Token) :=
  [(',', [], some .comma), ('(', [], some .lParen), (')', [], some .rParen),
    ('[', [], some .lBracket), (']', [], some .rBracket), ('*', [], some .star),
    ('+', [], some .plus),
    ('-', [(['|', '-'], .adjacent), (['>', '>'], .arrowText), (['>'], .arrow)], some .minus),
    ('/', [], some .slash), ('%', [], some .percent), ('|', [(['|'], .concat)], none),
    (':', [([':'], .doubleColon)], some .colon), ('=', [(['>'], .fatArrow)], some .eq),
    ('<', [(['='], .le), (['>'], .ne), (['@'], .containedBy), (['<'], .strictlyLeft)], some .lt),
    ('!', [(['~', '*'], .bangTildeStar), (['~'], .bangTilde), (['='], .ne)], none),
    ('~', [(['*'], .tildeStar)], some .tilde),
    ('@', [(['>'], .contains), (['?'], .jsonPathExists), (['@'], .jsonPathMatch)], none),
    ('&', [(['&'], .overlaps), (['<'], .notExtendRight), (['>'], .notExtendLeft)], none),
    ('>', [(['='], .ge), (['>'], .strictlyRight)], some .gt),
    ('?', [(['|'], .questionPipe), (['&'], .questionAmp)], some .question),
    ('#', [(['>', '>'], .hashArrowText), (['>'], .hashArrow), (['-'], .hashMinus)], none)]

/-- The bytes begin with these characters. -/
def startsWith : List Char → Bytes → Bool
  | [], _ => true
  | _ :: _, [] => false
  | c :: cs, b :: rest => is b c && startsWith cs rest

/-- What a `U` stands before when it makes a quoted body one with Unicode escapes. -/
def beginsEscaped (rest : Bytes) : Bool := startsWith ['&', '\''] rest || startsWith ['&', '"'] rest

/-- `b as char`, in UTF-8. -/
def asChar (b : UInt8) : Bytes :=
  if b < 0x80 then [b] else [(0xC0 : UInt8) ||| (b >>> 6), (0x80 : UInt8) ||| (b &&& 0x3F)]

/-- An error about one byte. -/
def unexpected (b : UInt8) : LexError :=
  syntaxAt (text "unexpected character '" ++ asChar b ++ text "'")

/-- The greedy choice among the operators of one first byte. -/
def greedy (b : UInt8) (longer : List (List Char × Token)) (alone : Option Token) (rest : Bytes) :
    Except LexError (Token × ℕ) :=
  match longer.find? fun op => startsWith op.1 rest with
  | some op => .ok (op.2, op.1.length)
  | none =>
    match alone with
    | some token => .ok (token, 0)
    | none => .error (unexpected b)

/-- A token of a quoted body, checked as its own kind is. -/
def quotedToken (quote : UInt8) (buf : Bytes) (escaped : Bool) : Except LexError Token :=
  if is quote '\'' then .ok (.str buf)
  else if buf.isEmpty then .error (syntaxAt (text "zero-length delimited identifier"))
  else if !escaped && buf.length > MAX_IDENTIFIER_LENGTH then .error nameTooLong
  else .ok (.quotedIdent buf)

/-- The error of a quoted body that does not end. -/
def unterminated (quote : UInt8) : LexError :=
  syntaxAt (if is quote '\'' then text "unterminated string literal"
    else text "unterminated quoted identifier")

/-- The bind parameter after a `$`. -/
def scanParam (rest : Bytes) : Except LexError (Token × ℕ) :=
  let digits := rest.takeWhile isDigit
  if digits.isEmpty then .error (syntaxAt (text "expected a parameter number after '$'"))
  else if is (digits.getD 0 0) '0' then
    .error (syntaxAt (text "invalid parameter number $" ++ digits ++
      text ": parameters are 1-based with no leading zero"))
  else
    let n := digits.foldl (fun n b => n * 10 + (b.toNat - '0'.toNat)) 0
    if n ≤ MAX_PARAM_INDEX then .ok (.param n, digits.length)
    else .error (syntaxAt (text "parameter number out of range: $" ++ digits ++
      text " (the maximum is $65535)"))

/-- `to_ascii_lowercase`. -/
def lower (b : UInt8) : UInt8 :=
  if 'A'.toNat ≤ b.toNat && b.toNat ≤ 'Z'.toNat then b + 32 else b

/-- A token, with where it starts and whether it is written with Unicode escapes. -/
structure Lexeme where
  token : Token
  start : ℕ
  escaped : Bool
  deriving DecidableEq

/-- One turn of the loop of `lex_raw` at the byte `b`: the token it pushes, and how many bytes it
takes after `b`. The check for a line comment stands before the operators that begin with a hyphen,
none of which begins with two. -/
def step (b : UInt8) (rest : Bytes) : Except LexError (Option (Token × Bool) × ℕ) :=
  if isBlank b then .ok (none, 0)
  else if is b '-' && startsWith ['-'] rest then
    .ok (none, 1 + (rest.tail.takeWhile fun b => !isEol b).length)
  else if is b '/' && startsWith ['*'] rest then
    match scanBlock 1 rest.tail with
    | some n => .ok (none, 1 + n)
    | none => .error (syntaxAt (text "unterminated /* comment"))
  else
    match operators.find? fun op => is b op.1 with
    | some op => do
      let (token, n) ← greedy b op.2.1 op.2.2 rest
      return (some (token, false), n)
    | none =>
      if is b '\'' || is b '"' then
        match scanQuotedBody b rest with
        | some (buf, n) => do return (some (← quotedToken b buf false, false), n)
        | none => .error (unterminated b)
      else if (is b 'u' || is b 'U') && beginsEscaped rest then
        let quote := rest.getD 1 0
        match scanQuotedBody quote (rest.drop 2) with
        | some (buf, n) => do return (some (← quotedToken quote buf true, true), 2 + n)
        | none => .error (unterminated quote)
      else if isDigit b then do
        let (token, n) ← scanNumber (b :: rest)
        return (some (token, false), n - 1)
      else if is b '.' then
        if isDigit (rest.getD 0 0) then do
          let (token, n) ← scanNumber (b :: rest)
          return (some (token, false), n - 1)
        else .ok (some (.dot, false), 0)
      else if is b '$' then do
        let (token, n) ← scanParam rest
        return (some (token, false), n)
      else if isAlpha b || is b '_' then
        let word := b :: rest.takeWhile isWordByte
        if word.length > MAX_IDENTIFIER_LENGTH then .error nameTooLong
        else .ok (some (.word (word.map lower), false), word.length - 1)
      else .error (unexpected b)

/-- The loop of `lex_raw` at byte `i`, with `skip` bytes still to pass over. -/
def scan : Bytes → (skip i : ℕ) → Except LexError (List Lexeme)
  | [], _, _ => .ok []
  | _ :: rest, skip + 1, i => scan rest skip (i + 1)
  | b :: rest, 0, i => do
    let (token, n) ← step b rest
    let lexemes ← scan rest n (i + 1)
    match token with
    | some (token, escaped) => return ⟨token, i, escaped⟩ :: lexemes
    | none => return lexemes

/-- `hex_digits`. -/
def hexDigits (s : Bytes) (n : ℕ) : Option ℕ :=
  if s.length < n then none
  else (s.take n).foldlM (fun v b => (toDigit 16 b).map fun d => v * 16 + d) 0

/-- `is_uescape_char`. -/
def isUescapeChar (b : UInt8) : Bool :=
  !((toDigit 16 b).isSome || is b '+' || is b '\'' || is b '"' || isBlank b || b.toNat == 0x0B ||
    b.toNat == 0x0C)

/-- The error of a surrogate without its partner. -/
def invalidPair : LexError := syntaxAt (text "invalid Unicode surrogate pair")

/-- An escape after the escape character: its code point and its length after it. -/
def escapeAt (rest : Bytes) : Option (ℕ × ℕ) :=
  match hexDigits rest 4 with
  | some v => some (v, 4)
  | none =>
    if startsWith ['+'] rest then (hexDigits rest.tail 6).map fun v => (v, 7) else none

/-- The code point of a pair of surrogates. -/
def pairOf (high low : ℕ) : ℕ := (high % 1024) * 1024 + low % 1024 + 0x10000

/-- `udeescape`, with `skip` bytes still to pass over. -/
def udeescape (esc : UInt8) : Bytes → (skip pairFirst : ℕ) → Except LexError Bytes
  | [], _, pairFirst => if pairFirst != 0 then .error invalidPair else .ok []
  | _ :: rest, skip + 1, pairFirst => udeescape esc rest skip pairFirst
  | b :: rest, 0, pairFirst =>
    if b != esc then
      if pairFirst != 0 then .error invalidPair
      else do return b :: (← udeescape esc rest 0 0)
    else if rest.head? == some esc then
      if pairFirst != 0 then .error invalidPair
      else do return esc :: (← udeescape esc rest 1 0)
    else
      match escapeAt rest with
      | none => .error ⟨.syntaxError, text "invalid Unicode escape",
          some (text "Unicode escapes must be \\XXXX or \\+XXXXXX.")⟩
      | some (cp, n) =>
        if cp == 0 || cp > 0x10FFFF then .error (syntaxAt (text "invalid Unicode escape value"))
        else
          let isHigh := decide (0xD800 ≤ cp ∧ cp ≤ 0xDBFF)
          let isLow := decide (0xDC00 ≤ cp ∧ cp ≤ 0xDFFF)
          if pairFirst != 0 then
            if !isLow then .error invalidPair
            else do
              return String.utf8EncodeChar (Char.ofNat (pairOf pairFirst cp)) ++
                (← udeescape esc rest n 0)
          else if isLow then .error invalidPair
          else if isHigh then udeescape esc rest n cp
          else do return String.utf8EncodeChar (Char.ofNat cp) ++ (← udeescape esc rest n 0)

/-- A token written with escapes, decoded. -/
def decodeToken (token : Token) (esc : UInt8) : Except LexError Token :=
  match token with
  | .str s => do return .str (← udeescape esc s 0 0)
  | .quotedIdent s => do
    let s ← udeescape esc s 0 0
    if s.length > MAX_IDENTIFIER_LENGTH then .error nameTooLong else return .quotedIdent s
  | token => .ok token

/-- The escape character a `UESCAPE` names. -/
def escapeCharOf : Token × Bool → Except LexError UInt8
  | (.str [b], false) =>
    if isUescapeChar b then .ok b else .error (syntaxAt (text "invalid Unicode escape character"))
  | (.str _, false) => .error (syntaxAt (text "invalid Unicode escape character"))
  | _ => .error (syntaxAt (text "UESCAPE must be followed by a simple string literal"))

/-- `apply_unicode_escapes`. -/
def applyUnicodeEscapes : List (Token × Bool) → Except LexError (List Token)
  | [] => .ok []
  | (token, false) :: rest => do return token :: (← applyUnicodeEscapes rest)
  | (token, true) :: next :: third :: rest =>
    if next.1 == .word (text "uescape") then do
      let esc ← escapeCharOf third
      return (← decodeToken token esc) :: (← applyUnicodeEscapes rest)
    else do return (← decodeToken token 92) :: (← applyUnicodeEscapes (next :: third :: rest))
  | (token, true) :: rest => do return (← decodeToken token 92) :: (← applyUnicodeEscapes rest)

/-- `check_text_encoding`. -/
def checkTextEncoding (s : Bytes) : Except LexError Unit :=
  if s.contains 0 then
    .error ⟨.characterNotInRepertoire, text "invalid byte sequence for encoding \"UTF8\": 0x00", none⟩
  else .ok ()

/-- `lex`. -/
def lex (s : Bytes) : Except LexError (List Token) := do
  checkTextEncoding s
  let lexemes ← scan s 0 0
  applyUnicodeEscapes (lexemes.map (fun l => (l.token, l.escaped)) ++ [(.eof, false)])

end Jed.Sql
