import Jed.Regex.Program

/-!
# The pattern parser

`Parser` of `regex.rs`: pattern text to a tree. The cursor is the text that is left; a loop of the
source runs on fuel that the text left covers (`parse_ne_stuck`).
-/

namespace Jed.Regex

/-- `Node`. -/
inductive Node where
  | empty
  | char (c : Char)
  | any
  | class_ (cc : CharClass)
  | concat (nodes : List Node)
  | alt (a b : Node)
  | star (sub : Node) (greedy : Bool)
  | plus (sub : Node) (greedy : Bool)
  | quest (sub : Node) (greedy : Bool)
  | repeat_ (sub : Node) (min : ℕ) (max : Option ℕ) (greedy : Bool)
  | group (sub : Node) (index : Option ℕ)
  | anchorStart
  | anchorEnd
  | lineStart
  | lineEnd

/-- `Quant`. -/
inductive Quant where
  | star
  | plus
  | quest
  | repeat_ (min : ℕ) (max : Option ℕ)

/-- `ClassItem`. -/
inductive ClassItem where
  | char (c : Char)
  | set (ranges : List (ℕ × ℕ))

/-- `Parser`: the text at the cursor and the capturing groups so far. -/
structure Parser where
  rest : List Char
  ngroups : ℕ

namespace Parser

/-- `Parser::peek`. -/
def peek (p : Parser) : Option Char := p.rest.head?

/-- `Parser::peek_at`. -/
def peekAt (p : Parser) (k : ℕ) : Option Char := p.rest[k]?

/-- `Parser::bump`, its character apart (`peek`). -/
def bump (p : Parser) : Parser := { p with rest := p.rest.tail }

end Parser

/-- A step of the parser. -/
abbrev Parsed (α : Type) : Type := Except RegexError (α × Parser)

/-- `is_meta`. -/
def isMeta (c : Char) : Bool :=
  c ∈ ['.', '*', '+', '?', '(', ')', '[', ']', '\x7b', '\x7d', '|', '^', '$', '\\']

/-- `control_escape`. -/
def controlEscape (c : Char) : Option Char :=
  if c = 'n' then some '\n'
  else if c = 't' then some '\t'
  else if c = 'r' then some '\r'
  else if c = 'f' then some (Char.ofNat 0x0C)
  else if c = 'v' then some (Char.ofNat 0x0B)
  else none

/-- `predef_class`. -/
def predefClass (c : Char) : Option (List (ℕ × ℕ) × Bool) :=
  if c = 'd' then some ([(48, 57)], false)
  else if c = 'D' then some ([(48, 57)], true)
  else if c = 'w' then some ([(48, 57), (65, 90), (95, 95), (97, 122)], false)
  else if c = 'W' then some ([(48, 57), (65, 90), (95, 95), (97, 122)], true)
  else if c = 's' then some ([(9, 13), (32, 32)], false)
  else if c = 'S' then some ([(9, 13), (32, 32)], true)
  else none

/-- `u32::saturating_add(1)`. -/
def satSucc (n : ℕ) : ℕ := if n < 4294967295 then n + 1 else 4294967295

/-- The loop of `normalize_ranges` over the sorted ranges, the last range put out held back. -/
def mergeRanges : ℕ × ℕ → List (ℕ × ℕ) → List (ℕ × ℕ)
  | last, [] => [last]
  | last, r :: rs =>
    if r.1 ≤ satSucc last.2 then mergeRanges (last.1, if r.2 > last.2 then r.2 else last.2) rs
    else last :: mergeRanges r rs

/-- `normalize_ranges`. -/
def normalizeRanges (ranges : List (ℕ × ℕ)) : List (ℕ × ℕ) :=
  match ranges.mergeSort fun a b => decide (a.1 < b.1 ∨ a.1 = b.1 ∧ a.2 ≤ b.2) with
  | [] => []
  | r :: rs => mergeRanges r rs

/-- The loop of `complement_ranges`. -/
def complementFrom (next : ℕ) : List (ℕ × ℕ) → List (ℕ × ℕ)
  | [] => if next ≤ maxCp then [(next, maxCp)] else []
  | r :: rs =>
    (if r.1 > next then [(next, r.1 - 1)] else []) ++
      (if satSucc r.2 > maxCp then [] else complementFrom (satSucc r.2) rs)

/-- `complement_ranges`. -/
def complementRanges (ranges : List (ℕ × ℕ)) : List (ℕ × ℕ) := complementFrom 0 ranges

/-- The loop of `read_count`; the count stays below `MAX_REGEX_PROGRAM + 2`, so no product saturates. -/
def readCountFrom (any : Bool) (n : ℕ) : List Char → Option ℕ × List Char
  | [] => (if any then some n else none, [])
  | c :: cs =>
    if c.isDigit then
      let n := n * 10 + (c.toNat - '0'.toNat)
      readCountFrom true (if n > maxRegexProgram then maxRegexProgram + 1 else n) cs
    else (if any then some n else none, c :: cs)

/-- `Parser::read_count`. -/
def readCount (p : Parser) : Option ℕ × Parser :=
  match readCountFrom false 0 p.rest with
  | (n, rest) => (n, { p with rest := rest })

/-- `Parser::try_interval` after the count and the comma: `n,}` or `n,m}`; `start` is the parser at the
    brace. -/
def tryUpper (start : Parser) (min : ℕ) (p : Parser) : Parsed (Option Quant) :=
  if p.peek = some '\x7d' then .ok (some (.repeat_ min none), p.bump)
  else
    match readCount p with
    | (none, _) => .ok (none, start)
    | (some hi, q) =>
      if q.peek = some '\x7d' then
        if hi < min then .error (.invalid "invalid repetition count")
        else .ok (some (.repeat_ min (some hi)), q.bump)
      else .ok (none, start)

/-- `Parser::try_interval`: where the text is no interval the parser is left where it stood. -/
def tryInterval (p : Parser) : Parsed (Option Quant) :=
  match readCount p.bump with
  | (none, _) => .ok (none, p)
  | (some min, q) =>
    if q.peek = some '\x7d' then .ok (some (.repeat_ min (some min)), q.bump)
    else if q.peek = some ',' then tryUpper p min q.bump
    else .ok (none, p)

/-- The quantifier at the cursor. -/
def readQuant (p : Parser) : Parsed (Option Quant) :=
  if p.peek = some '*' then .ok (some .star, p.bump)
  else if p.peek = some '+' then .ok (some .plus, p.bump)
  else if p.peek = some '?' then .ok (some .quest, p.bump)
  else if p.peek = some '\x7b' then tryInterval p
  else .ok (none, p)

/-- `Parser::parse_escape`, after the backslash. -/
def parseEscape (p : Parser) : Parsed Node :=
  match p.peek with
  | none => .error (.invalid "trailing backslash")
  | some c =>
    if c = 'A' then .ok (.anchorStart, p.bump)
    else if c = 'z' then .ok (.anchorEnd, p.bump)
    else
      match predefClass c with
      | some (ranges, negated) => .ok (.class_ ⟨negated, ranges⟩, p.bump)
      | none =>
        match controlEscape c with
        | some ctrl => .ok (.char ctrl, p.bump)
        | none =>
          if isMeta c || !c.isAlphanum then .ok (.char c, p.bump)
          else .error (.invalid ("invalid escape \\" ++ c.toString))

/-- An escape inside a class, after the backslash. -/
def classEscape (p : Parser) : Parsed ClassItem :=
  match p.peek with
  | none => .error (.invalid "trailing backslash")
  | some e =>
    match predefClass e with
    | some (rs, negated) =>
      .ok (.set (if negated then complementRanges (normalizeRanges rs) else rs), p.bump)
    | none =>
      match controlEscape e with
      | some ctrl => .ok (.char ctrl, p.bump)
      | none =>
        if isMeta e || !e.isAlphanum then .ok (.char e, p.bump)
        else .error (.invalid ("invalid escape \\" ++ e.toString))

/-- `Parser::class_item`. -/
def classItem (p : Parser) : Parsed ClassItem :=
  match p.peek with
  | none => .error .stuck
  | some c => if c = '\\' then classEscape p.bump else .ok (.char c, p.bump)

/-- The ranges of an item `lo-` whose high end is `hi`. -/
def rangeTo (lo : Char) : ClassItem → Except RegexError (List (ℕ × ℕ))
  | .char hi =>
    if lo.toNat > hi.toNat then .error (.invalid "invalid range in bracket expression")
    else .ok [(lo.toNat, hi.toNat)]
  | .set rs => .ok ((lo.toNat, lo.toNat) :: ('-'.toNat, '-'.toNat) :: rs)

/-- What an item of a class adds to its ranges. -/
def classRanges (p : Parser) : Parsed (List (ℕ × ℕ)) :=
  (classItem p).bind fun (item, q) =>
    match item with
    | .set rs => .ok (rs, q)
    | .char lo =>
      if q.peek = some '-' ∧ (q.peekAt 1).isSome ∧ q.peekAt 1 ≠ some ']' then
        (classItem q.bump).bind fun (hi, q) => (rangeTo lo hi).map fun rs => (rs, q)
      else .ok ([(lo.toNat, lo.toNat)], q)

/-- The loop of `Parser::parse_class`. -/
def classLoop : ℕ → Bool → List (ℕ × ℕ) → Parser → Parsed (List (ℕ × ℕ))
  | 0, _, _, _ => .error .stuck
  | fuel + 1, first, ranges, p =>
    if p.peek = none then .error (.invalid "unbalanced bracket expression")
    else if p.peek = some ']' ∧ first = false then .ok (ranges, p.bump)
    else (classRanges p).bind fun (rs, q) => classLoop fuel false (ranges ++ rs) q

/-- The class of a bracket expression's ranges. -/
def closeClass (mode : Mode) (negated : Bool) (ranges : List (ℕ × ℕ)) : CharClass :=
  ⟨negated, normalizeRanges
    (if negated && mode.nlStop then ranges ++ [('\n'.toNat, '\n'.toNat)] else ranges)⟩

/-- `Parser::parse_class`. -/
def parseClass (mode : Mode) (p : Parser) : Parsed Node :=
  let negated := decide (p.bump.peek = some '^')
  let p := if negated then p.bump.bump else p.bump
  (classLoop (p.rest.length + 1) true [] p).bind fun (ranges, q) =>
    .ok (.class_ (closeClass mode negated ranges), q)

/-- `Parser::parse_group`, with `alt` for `parse_alt`. -/
def parseGroup (alt : Parser → Parsed Node) (p : Parser) : Parsed Node :=
  let inner (index : Option ℕ) (p : Parser) : Parsed Node :=
    (alt p).bind fun (sub, q) =>
      if q.peek = some ')' then .ok (.group sub index, q.bump)
      else .error (.invalid "unbalanced parenthesis")
  if p.bump.peek = some '?' then
    if p.bump.peekAt 1 = some ':' then inner none p.bump.bump.bump
    else .error (.invalid "unsupported group syntax")
  else inner (some (p.ngroups + 1)) { p.bump with ngroups := p.ngroups + 1 }

/-- `Parser::parse_atom`. -/
def parseAtom (mode : Mode) (alt : Parser → Parsed Node) (p : Parser) : Parsed Node :=
  match p.peek with
  | none => .error .stuck
  | some c =>
    if c = '(' then parseGroup alt p
    else if c = '[' then parseClass mode p
    else if c = '.' then .ok (if mode.dotAll then .class_ ⟨true, []⟩ else .any, p.bump)
    else if c = '^' then .ok (if mode.nlAnchor then .lineStart else .anchorStart, p.bump)
    else if c = '$' then .ok (if mode.nlAnchor then .lineEnd else .anchorEnd, p.bump)
    else if c = '\\' then parseEscape p.bump
    else if c = '*' ∨ c = '+' ∨ c = '?' then .error (.invalid "quantifier operand missing")
    else .ok (.char c, p.bump)

/-- A quantifier's node over its atom. -/
def Quant.node (atom : Node) (greedy : Bool) : Quant → Node
  | .star => .star atom greedy
  | .plus => .plus atom greedy
  | .quest => .quest atom greedy
  | .repeat_ min max => .repeat_ atom min max greedy

/-- The rest of `Parser::parse_quant` after its quantifier: the lazy `?`, and no second quantifier. -/
def closeQuant (atom : Node) (quant : Quant) (p : Parser) : Parsed Node :=
  let greedy := !decide (p.peek = some '?')
  let p := if greedy then p else p.bump
  if p.peek = some '*' ∨ p.peek = some '+' ∨ p.peek = some '?' then
    .error (.invalid "quantifier operand missing")
  else .ok (quant.node atom greedy, p)

/-- `Parser::parse_quant`. -/
def parseQuant (mode : Mode) (alt : Parser → Parsed Node) (p : Parser) : Parsed Node :=
  (parseAtom mode alt p).bind fun (atom, p) =>
    (readQuant p).bind fun (quant, p) =>
      match quant with
      | none => .ok (atom, p)
      | some quant => closeQuant atom quant p

/-- The loop of `Parser::parse_concat`. -/
def concatLoop (mode : Mode) (alt : Parser → Parsed Node) : ℕ → Parser → Parsed (List Node)
  | 0, _ => .error .stuck
  | fuel + 1, p =>
    if p.peek = none ∨ p.peek = some '|' ∨ p.peek = some ')' then .ok ([], p)
    else
      (parseQuant mode alt p).bind fun (node, p) =>
        (concatLoop mode alt fuel p).bind fun (nodes, p) => .ok (node :: nodes, p)

/-- What `parse_concat` makes of its nodes. -/
def closeConcat : List Node → Node
  | [] => .empty
  | [node] => node
  | nodes => .concat nodes

/-- `Parser::parse_concat`. -/
def parseConcat (mode : Mode) (alt : Parser → Parsed Node) (p : Parser) : Parsed Node :=
  (concatLoop mode alt (p.rest.length + 1) p).bind fun (nodes, p) => .ok (closeConcat nodes, p)

/-- `Parser::parse_alt`. -/
def parseAlt (mode : Mode) : ℕ → Parser → Parsed Node
  | 0, _ => .error .stuck
  | fuel + 1, p =>
    (parseConcat mode (parseAlt mode fuel) p).bind fun (left, p) =>
      if p.peek = some '|' then
        (parseAlt mode fuel p.bump).bind fun (right, p) => .ok (.alt left right, p)
      else .ok (left, p)

/-- The parse of `compile_wrapped`: the root and the number of capturing groups. -/
def parse (mode : Mode) (pattern : List Char) : Except RegexError (Node × ℕ) :=
  (parseAlt mode (pattern.length + 1) ⟨pattern, 0⟩).bind fun (root, p) =>
    if p.rest = [] then .ok (root, p.ngroups) else .error (.invalid "unbalanced parenthesis")

/-- The step does not get stuck, and leaves at most `n` characters. -/
def Reads (n : ℕ) {α : Type} : Parsed α → Prop
  | .ok (_, p) => p.rest.length ≤ n
  | .error e => e ≠ .stuck

namespace Reads

variable {α β : Type} {n m : ℕ} {r : Parsed α}

theorem mono (h : Reads n r) (hnm : n ≤ m) : Reads m r := by
  cases r with
  | error e => exact h
  | ok v => exact Nat.le_trans h hnm

theorem bind {f : α × Parser → Parsed β} (h : Reads n r)
    (hf : ∀ a p, p.rest.length ≤ n → Reads m (f (a, p))) : Reads m (r.bind f) := by
  cases r with
  | error e => exact h
  | ok v => exact hf v.1 v.2 h

end Reads

variable {p : Parser}

theorem peek_eq_none : p.peek = none ↔ p.rest = [] := List.head?_eq_none_iff

theorem length_bump_le (p : Parser) : p.bump.rest.length ≤ p.rest.length := by
  simp [Parser.bump]

variable {c : Char}

theorem length_bump (h : p.peek = some c) :
    p.bump.rest.length + 1 = p.rest.length := by
  cases hr : p.rest with
  | nil => rw [peek_eq_none.2 hr] at h; cases h
  | cons d ds => simp [Parser.bump, hr]

theorem length_readCountFrom (cs : List Char) (any : Bool) (n : ℕ) :
    (readCountFrom any n cs).2.length ≤ cs.length := by
  induction cs generalizing any n with
  | nil => exact Nat.le_refl _
  | cons c cs ih =>
    rw [readCountFrom]
    split
    · exact Nat.le_trans (ih _ _) (Nat.le_succ _)
    · exact Nat.le_refl _

theorem length_readCount (p : Parser) : (readCount p).2.rest.length ≤ p.rest.length :=
  length_readCountFrom p.rest false 0

theorem tryUpper_reads (start : Parser) (min : ℕ) (h : p.rest.length ≤ start.rest.length) :
    Reads start.rest.length (tryUpper start min p) := by
  have hbump := length_bump_le p
  have hcount := length_readCount p
  rw [tryUpper]
  split
  · exact Nat.le_trans hbump h
  · split
    next => exact Nat.le_refl _
    next hi q hq =>
      have hlen : q.rest.length ≤ p.rest.length := by rwa [hq] at hcount
      have hq' := length_bump_le q
      split
      · split
        · exact nofun
        · change q.bump.rest.length ≤ _
          omega
      · exact Nat.le_refl _

theorem tryInterval_reads (p : Parser) : Reads p.rest.length (tryInterval p) := by
  have hbump := length_bump_le p
  have hcount := length_readCount p.bump
  rw [tryInterval]
  split
  next => exact Nat.le_refl _
  next min q hq =>
    have hlen : q.rest.length ≤ p.bump.rest.length := by rwa [hq] at hcount
    have hq' := length_bump_le q
    split
    · change q.bump.rest.length ≤ _
      omega
    · split
      · exact tryUpper_reads p min (by omega)
      · exact Nat.le_refl _

theorem readQuant_reads (p : Parser) : Reads p.rest.length (readQuant p) := by
  have hbump := length_bump_le p
  rw [readQuant]
  split
  · exact hbump
  split
  · exact hbump
  split
  · exact hbump
  split
  · exact tryInterval_reads p
  · exact Nat.le_refl _

theorem parseEscape_reads (p : Parser) : Reads p.rest.length (parseEscape p) := by
  have hbump := length_bump_le p
  rw [parseEscape]
  split
  · exact nofun
  split
  · exact hbump
  split
  · exact hbump
  split
  · exact hbump
  split
  · exact hbump
  split
  · exact hbump
  · exact nofun

theorem classEscape_reads (p : Parser) : Reads p.rest.length (classEscape p) := by
  have hbump := length_bump_le p
  rw [classEscape]
  split
  · exact nofun
  split
  · exact hbump
  split
  · exact hbump
  split
  · exact hbump
  · exact nofun

theorem classItem_reads (h : p.peek = some c) :
    Reads p.bump.rest.length (classItem p) := by
  rw [classItem, h]
  dsimp only
  split
  · exact classEscape_reads p.bump
  · exact Nat.le_refl _

theorem rangeTo_ne_stuck (lo : Char) (hi : ClassItem) : rangeTo lo hi ≠ .error .stuck := by
  cases hi with
  | char hi =>
    rw [rangeTo]
    split <;> exact nofun
  | set rs => exact nofun

theorem classRanges_reads (h : p.peek = some c) :
    Reads p.bump.rest.length (classRanges p) := by
  refine (classItem_reads h).bind fun item q hq => ?_
  cases item with
  | set rs => exact hq
  | char lo =>
    dsimp only
    split
    next hrange =>
      obtain ⟨hdash, hnext, -⟩ := hrange
      -- the high end is there: `peek_at(1)` is the next parser's `peek`
      obtain ⟨d, hd⟩ := Option.isSome_iff_exists.1 hnext
      have hpeek : q.bump.peek = some d := by
        rw [Parser.peek, Parser.bump, List.head?_eq_getElem?, List.getElem?_tail]
        exact hd
      refine (classItem_reads hpeek).bind fun hi q' hq' => ?_
      have hb := length_bump_le q.bump
      have hb' := length_bump_le q
      cases hr : rangeTo lo hi with
      | error e =>
        intro he
        exact rangeTo_ne_stuck lo hi (by rw [hr, he])
      | ok rs =>
        change q'.rest.length ≤ _
        omega
    next => exact hq

theorem classLoop_reads (fuel : ℕ) (first : Bool) (ranges : List (ℕ × ℕ)) (p : Parser)
    (h : p.rest.length < fuel) : Reads p.rest.length (classLoop fuel first ranges p) := by
  induction fuel generalizing first ranges p with
  | zero => omega
  | succ fuel ih =>
    rw [classLoop]
    split
    · exact nofun
    next hsome =>
      obtain ⟨c, hc⟩ := Option.ne_none_iff_exists'.1 hsome
      have hlen := length_bump hc
      split
      · exact length_bump_le p
      · refine (classRanges_reads hc).bind fun rs q hq => ?_
        exact (ih false _ q (by omega)).mono (by omega)

theorem parseClass_reads (mode : Mode) (p : Parser) :
    Reads p.bump.rest.length (parseClass mode p) := by
  have hbump := length_bump_le p.bump
  refine ((classLoop_reads _ _ _ _ (Nat.lt_succ_self _)).mono ?_).bind fun ranges q hq => hq
  split
  · exact hbump
  · exact Nat.le_refl _

/-- A parser of alternations that does not get stuck on fewer than `n` characters. -/
def ReadsBelow (n : ℕ) (alt : Parser → Parsed Node) : Prop :=
  ∀ p, p.rest.length < n → Reads p.rest.length (alt p)

variable {n : ℕ} {alt : Parser → Parsed Node}

theorem closeGroup_reads {q : Parser} {index : Option ℕ} (halt : ReadsBelow n alt)
    (hq : q.rest.length ≤ p.bump.rest.length) (hn : p.bump.rest.length < n) :
    Reads p.bump.rest.length ((alt q).bind fun (sub, q) =>
      if q.peek = some ')' then .ok (Node.group sub index, q.bump)
      else .error (.invalid "unbalanced parenthesis")) := by
  refine ((halt q (by omega)).mono hq).bind fun sub q' hq' => ?_
  dsimp only
  split
  · exact Nat.le_trans (length_bump_le q') hq'
  · exact nofun

theorem parseGroup_reads (halt : ReadsBelow n alt) (hn : p.bump.rest.length < n) :
    Reads p.bump.rest.length (parseGroup alt p) := by
  have hb := length_bump_le p.bump
  have hb' := length_bump_le p.bump.bump
  rw [parseGroup]
  split
  · split
    · exact closeGroup_reads halt (by omega) hn
    · exact nofun
  · exact closeGroup_reads halt (Nat.le_refl _) hn

/-- An atom takes at least a character. -/
theorem parseAtom_reads (mode : Mode) (h : p.peek = some c)
    (halt : ReadsBelow n alt) (hn : p.rest.length ≤ n) :
    Reads p.bump.rest.length (parseAtom mode alt p) := by
  have hlen := length_bump h
  rw [parseAtom, h]
  dsimp only
  split
  · exact parseGroup_reads halt (by omega)
  split
  · exact parseClass_reads mode p
  split
  · exact Nat.le_refl _
  split
  · exact Nat.le_refl _
  split
  · exact Nat.le_refl _
  split
  · exact parseEscape_reads p.bump
  split
  · exact nofun
  · exact Nat.le_refl _

theorem closeQuant_reads (atom : Node) (quant : Quant) (p : Parser) :
    Reads p.rest.length (closeQuant atom quant p) := by
  have hbump := length_bump_le p
  have hlazy : (if !decide (p.peek = some '?') then p else p.bump).rest.length ≤ p.rest.length := by
    split
    · exact Nat.le_refl _
    · exact hbump
  rw [closeQuant]
  generalize (if !decide (p.peek = some '?') then p else p.bump) = q at hlazy ⊢
  split
  · exact nofun
  · exact hlazy

theorem parseQuant_reads (mode : Mode) (h : p.peek = some c)
    (halt : ReadsBelow n alt) (hn : p.rest.length ≤ n) :
    Reads p.bump.rest.length (parseQuant mode alt p) := by
  refine (parseAtom_reads mode h halt hn).bind fun atom q hq => ?_
  refine ((readQuant_reads q).mono hq).bind fun quant q' hq' => ?_
  cases quant with
  | none => exact hq'
  | some quant => exact (closeQuant_reads atom quant q').mono hq'

theorem concatLoop_reads (mode : Mode) (halt : ReadsBelow n alt) (fuel : ℕ) (p : Parser)
    (h : p.rest.length < fuel) (hn : p.rest.length ≤ n) :
    Reads p.rest.length (concatLoop mode alt fuel p) := by
  induction fuel generalizing p with
  | zero => omega
  | succ fuel ih =>
    rw [concatLoop]
    split
    · exact Nat.le_refl _
    next hgo =>
      obtain ⟨c, hc⟩ := Option.ne_none_iff_exists'.1 (not_or.1 hgo).1
      have hlen := length_bump hc
      refine (parseQuant_reads mode hc halt hn).bind fun node q hq => ?_
      refine ((ih q (by omega) (by omega)).mono (m := p.rest.length) (by omega)).bind
        fun nodes q' hq' => hq'

theorem parseAlt_reads (mode : Mode) (fuel : ℕ) (p : Parser) (h : p.rest.length < fuel) :
    Reads p.rest.length (parseAlt mode fuel p) := by
  induction fuel generalizing p with
  | zero => omega
  | succ fuel ih =>
    rw [parseAlt]
    refine (concatLoop_reads mode ih _ p (Nat.lt_succ_self _) (Nat.le_of_lt_succ h)).bind
      (f := fun (nodes, p) => .ok (closeConcat nodes, p)) (fun nodes q hq => hq) |>.bind
      fun left q hq => ?_
    dsimp only
    split
    next hbar =>
      have hlen := length_bump hbar
      refine ((ih q.bump (by omega)).mono (m := p.rest.length) (by omega)).bind
        fun right q' hq' => hq'
    next => exact hq

/-- The fuel of `parse` covers every pattern. -/
theorem parse_ne_stuck (mode : Mode) (pattern : List Char) : parse mode pattern ≠ .error .stuck := by
  have h := parseAlt_reads mode (pattern.length + 1) ⟨pattern, 0⟩ (Nat.lt_succ_self _)
  rw [parse]
  cases hp : parseAlt mode (pattern.length + 1) ⟨pattern, 0⟩ with
  | error e =>
    rw [hp] at h
    intro he
    exact h (by cases he; rfl)
  | ok v =>
    change (if v.2.rest = [] then _ else _) ≠ _
    split <;> exact nofun

end Jed.Regex
