import Jed.Regex.Program

/-!
# Iterating a search

The loops of `regex.rs` over the matches of a program: `regexp_replace`, `regexp_count`,
`regexp_substr`/`regexp_instr` and the splits, each with its own bookkeeping, and the walk over a
replacement template. A slice out of range gives `none`; so does a loop that runs out of fuel.
-/

namespace Jed.Regex

/-- The UTF-8 length of a text. -/
def byteLen : List Char → ℤ
  | [] => 0
  | c :: s => c.utf8Size + byteLen s

/-- `orig[a..b]`. -/
def textSlice (orig : List Char) (a b : ℕ) : Option (List Char) :=
  if a ≤ b ∧ b ≤ orig.length then some ((orig.drop a).take (b - a)) else none

/-- `Piece`. -/
inductive Piece where
  | char (c : Char)
  | span (a b : ℕ)

/-- The digit of `\1`..`\9`. -/
def groupDigit (c : Char) : Option ℕ :=
  if c.isDigit ∧ c ≠ '0' then some (c.toNat - '0'.toNat) else none

namespace Program

variable (prog : Program) (input orig : List Char)

/-- `Program::slot`; the slots of a match are all there. -/
def slot (caps : Slots) (i : ℕ) : ℤ := caps[i]?.getD (-1)

/-- `Program::span`. -/
def span (caps : Slots) : ℕ × ℕ := ((slot caps 0).toNat, (slot caps 1).toNat)

/-- Where a loop goes on after a match. -/
def nextPos (m : ℕ × ℕ) : ℕ := if m.2 > m.1 then m.2 else m.2 + 1

/-- The loop of `replace_matches`. -/
def replaceLoop (global : Bool) : ℕ → ℕ → List Slots → Option (List Slots)
  | 0, _, _ => none
  | fuel + 1, pos, found =>
    match prog.search input pos with
    | none => none
    | some none => some found
    | some (some caps) =>
      let found := found ++ [caps]
      if !global then some found
      else if nextPos (span caps) > input.length then some found
      else replaceLoop global fuel (nextPos (span caps)) found

/-- `Program::replace_matches`. -/
def replaceMatches (global : Bool) : Option (List Slots) :=
  prog.replaceLoop input global (input.length + 2) 0 []

/-- The loop of `regexp_count`. -/
def countLoop : ℕ → ℕ → ℤ → Option ℤ
  | 0, _, _ => none
  | fuel + 1, pos, count =>
    if pos ≤ input.length then
      match prog.search input pos with
      | none => none
      | some none => some count
      | some (some caps) => countLoop fuel (nextPos (span caps)) (count + 1)
    else some count

/-- `Program::regexp_count`. -/
def regexpCount (start : ℕ) : Option ℤ := prog.countLoop input (input.length + 2) start 0

/-- The loop of `nth_match`. -/
def nthLoop (n : ℤ) : ℕ → ℕ → ℤ → Option (Option Slots)
  | 0, _, _ => none
  | fuel + 1, pos, count =>
    if pos ≤ input.length then
      match prog.search input pos with
      | none => none
      | some none => some none
      | some (some caps) =>
        if count + 1 = n then some (some caps)
        else nthLoop n fuel (nextPos (span caps)) (count + 1)
    else some none

/-- `Program::nth_match`. -/
def nthMatch (start : ℕ) (n : ℤ) : Option (Option Slots) :=
  prog.nthLoop input n (input.length + 2) start 0

/-- The loop of `split_pieces`, and the piece after it. -/
def splitLoop : ℕ → ℕ → ℕ → ℕ → List (List Char) → Option (List (List Char))
  | 0, _, _, _, _ => none
  | fuel + 1, pos, prevEnd, pieceStart, pieces =>
    let last := (textSlice orig pieceStart input.length).map fun piece => pieces ++ [piece]
    if pos ≤ input.length then
      match prog.search input pos with
      | none => none
      | some none => last
      | some (some caps) =>
        let s := (span caps).1
        let e := (span caps).2
        if s < input.length ∧ e > prevEnd then
          match textSlice orig pieceStart s with
          | none => none
          | some piece => splitLoop fuel (nextPos (s, e)) e e (pieces ++ [piece])
        else splitLoop fuel (nextPos (s, e)) e pieceStart pieces
    else last

/-- `Program::split_pieces`. -/
def splitPieces : Option (List (List Char)) :=
  prog.splitLoop input orig (input.length + 2) 0 0 0 []

/-- The span of a group, nothing where it is unset. -/
def groupPiece (caps : Slots) (g : ℕ) : List Piece :=
  let s := slot caps (2 * g)
  let e := slot caps (2 * g + 1)
  if s ≥ 0 ∧ e ≥ 0 then [.span s.toNat e.toNat] else []

/-- `Program::for_each_piece`. -/
def forEachPiece (caps : Slots) : List Char → List Piece
  | [] => []
  | [c] => [.char c]
  | c :: n :: rest =>
    if c = '\\' then
      match groupDigit n with
      | some g => (if g ≤ prog.ngroups then groupPiece caps g else []) ++ forEachPiece caps rest
      | none =>
        if n = '&' then groupPiece caps 0 ++ forEachPiece caps rest
        else if n = '\\' then .char n :: forEachPiece caps rest
        else .char c :: forEachPiece caps (n :: rest)
    else .char c :: forEachPiece caps (n :: rest)

/-- `Program::for_each_output` from `pos`. -/
def forEachOutput (repl : List Char) : ℕ → List Slots → List Piece
  | pos, [] => if pos ≤ orig.length then [.span pos orig.length] else []
  | pos, caps :: found =>
    let s := (span caps).1
    let e := (span caps).2
    .span pos s :: (prog.forEachPiece caps repl ++
      if e > s then forEachOutput repl e found
      else (orig[e]?.map Piece.char).toList ++ forEachOutput repl (e + 1) found)

/-- What a piece adds to the size. -/
def pieceSize : Piece → Option ℤ
  | .char c => some c.utf8Size
  | .span a b => (textSlice orig a b).map byteLen

/-- What a piece adds to the text. -/
def pieceText : Piece → Option (List Char)
  | .char c => some [c]
  | .span a b => textSlice orig a b

/-- The closure of `replace_size` over the pieces. -/
def addSizes : ℤ → List Piece → Option ℤ
  | size, [] => some size
  | size, p :: ps =>
    match pieceSize orig p with
    | none => none
    | some n => addSizes (size + n) ps

/-- The closure of `replace_build` over the pieces. -/
def addTexts : List Char → List Piece → Option (List Char)
  | out, [] => some out
  | out, p :: ps =>
    match pieceText orig p with
    | none => none
    | some s => addTexts (out ++ s) ps

/-- `Program::replace_size`. -/
def replaceSize (repl : List Char) (found : List Slots) : Option ℤ :=
  addSizes orig 0 (prog.forEachOutput orig repl 0 found)

/-- `Program::replace_build`. -/
def replaceBuild (repl : List Char) (found : List Slots) : Option (List Char) :=
  addTexts orig [] (prog.forEachOutput orig repl 0 found)

end Program

end Jed.Regex
