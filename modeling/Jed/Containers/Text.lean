import Jed.Format.Rounded
import Jed.Lib.Results
import Mathlib.Algebra.Order.BigOperators.GroupWithZero.List
import Mathlib.Data.List.DropRight

/-!
# The texts of containers

Composites, arrays and ranges as text (`value.rs:1036-1670`, `range.rs:77-180`, `range.rs:923-977`), over the
texts of what they contain, and the parsers of these forms.
-/

namespace Jed.Containers

open DigitString Format

abbrev Text := List Char

/-- The texts of what is in a container, none where it is NULL. -/
abbrev Tokens := List (Option Text)

def asciiSpace (c : Char) : Bool := c ∈ [' ', '\t', '\n', Char.ofNat 12, '\r']

/-- `char::is_whitespace`. -/
def whiteSpace (c : Char) : Bool :=
  c.toNat ∈ [9, 10, 11, 12, 13, 32, 133, 160, 5760, 8192, 8193, 8194, 8195, 8196, 8197, 8198, 8199, 8200, 8201,
    8202, 8232, 8233, 8239, 8287, 12288]

/-- `trim_matches`. -/
def trim (p : Char → Bool) (s : Text) : Text := (s.dropWhile p).rdropWhile p

/-! ## Quoting -/

/-- What every container quotes: quotes, backslashes, commas and white space. -/
def special (c : Char) : Bool :=
  c ∈ ['"', '\\', ',', ' ', '\t', '\n', Char.ofNat 11, Char.ofNat 12, '\r']

/-- Quotes and backslashes, behind what they are escaped by. -/
def escape (esc : Char → Char) (s : Text) : Text :=
  s.flatMap fun c => if c = '"' ∨ c = '\\' then [esc c, c] else [c]

def quote (esc : Char → Char) (s : Text) : Text := '"' :: (escape esc s ++ ['"'])

/-- What is between quotes, the opening one being read, and what is behind them; two quotes may stand for one. -/
def quoted (doubled : Bool) : Text → Option (Text × Text)
  | [] => none
  | '"' :: s =>
    match doubled, s with
    | true, '"' :: s => (quoted doubled s).map fun p => ('"' :: p.1, p.2)
    | _, s => some ([], s)
  | '\\' :: s =>
    match s with
    | [] => none
    | c :: s => (quoted doubled s).map fun p => (c :: p.1, p.2)
  | c :: s => (quoted doubled s).map fun p => (c :: p.1, p.2)

/-- What is up to a delimiter. -/
def unquoted (stop : Char → Bool) : Text → Option (Text × Text)
  | [] => none
  | '\\' :: s =>
    match s with
    | [] => none
    | c :: s => (unquoted stop s).map fun p => (c :: p.1, p.2)
  | c :: s =>
    if stop c then some ([], c :: s) else (unquoted stop s).map fun p => (c :: p.1, p.2)

theorem escape_cons (esc : Char → Char) (c : Char) (s : Text) :
    escape esc (c :: s) = (if c = '"' ∨ c = '\\' then [esc c, c] else [c]) ++ escape esc s := rfl

/-- What was escaped is read back, up to the closing quote. -/
theorem quoted_escape {esc : Char → Char} {doubled : Bool} (hback : esc '\\' = '\\')
    (hquote : esc '"' = '\\' ∨ (doubled = true ∧ esc '"' = '"')) {r : Text}
    (hr : doubled = true → r.head? ≠ some '"') (s : Text) :
    quoted doubled (escape esc s ++ '"' :: r) = some (s, r) := by
  induction s with
  | nil =>
    change quoted doubled ('"' :: r) = _
    rw [quoted]
    intro t hd heq
    exact hr hd (heq ▸ rfl)
  | cons c s ih =>
    rw [escape_cons]
    by_cases hq : c = '"'
    · subst hq
      rcases hquote with h | ⟨rfl, h⟩
      · rw [if_pos (Or.inl rfl), h]
        change quoted doubled ('\\' :: '"' :: (escape esc s ++ '"' :: r)) = _
        rw [quoted, ih]
        rfl
      · rw [if_pos (Or.inl rfl), h]
        change quoted true ('"' :: '"' :: (escape esc s ++ '"' :: r)) = _
        rw [quoted, ih]
        rfl
    · by_cases hb : c = '\\'
      · subst hb
        rw [if_pos (Or.inr rfl), hback]
        change quoted doubled ('\\' :: '\\' :: (escape esc s ++ '"' :: r)) = _
        rw [quoted, ih]
        rfl
      · rw [if_neg (by rintro (h | h) <;> contradiction)]
        change quoted doubled (c :: (escape esc s ++ '"' :: r)) = _
        rw [quoted, ih]
        · rfl
        · exact hq
        · exact hb

variable {d : Char}

/-- Plain characters are read as they are. -/
theorem unquoted_plain {stop : Char → Bool} (hd : stop d = true) (hback : d ≠ '\\') (r : Text) :
    ∀ s : Text, (∀ c ∈ s, stop c = false ∧ c ≠ '\\') → unquoted stop (s ++ d :: r) = some (s, d :: r) := by
  intro s
  induction s with
  | nil =>
    intro _
    rw [List.nil_append, unquoted, if_pos hd]
    exact hback
  | cons c s ih =>
    intro h
    obtain ⟨⟨hstop, hback⟩, h⟩ := List.forall_mem_cons.1 h
    rw [List.cons_append, unquoted, if_neg (by rw [hstop]; decide), ih h]
    · rfl
    · exact hback

/-! ## Composites -/

/-- `record_field_needs_quote`. -/
def recordFieldNeedsQuote (s : Text) : Bool := s.isEmpty || s.any fun c => special c || c ∈ ['(', ')']

def recordFieldOut : Option Text → Text
  | none => []
  | some s => if recordFieldNeedsQuote s then quote id s else s

/-- Texts with commas between them. -/
def joined : List Text → Text
  | [] => []
  | [s] => s
  | s :: t :: ts => s ++ ',' :: joined (t :: ts)

/-- `record_out`, of the texts of the fields. -/
def recordOut (fields : Tokens) : Text := '(' :: (joined (fields.map recordFieldOut) ++ [')'])

def fieldEnd (c : Char) : Bool := c ∈ [',', ')']

/-- A field, and the text from its delimiter on. -/
def recordField (s : Text) : Option (Option Text × Text) :=
  match s with
  | '"' :: s => (quoted true s).map fun p => (some p.1, p.2.dropWhile asciiSpace)
  | s => (unquoted fieldEnd s).map fun p => (if p.1 = [] then none else some p.1, p.2)

/-- The fields up to the end of the text; each of them takes a character, its delimiter, at the least. -/
def recordFields : ℕ → Text → Option (Tokens)
  | 0, _ => none
  | fuel + 1, s =>
    match recordField s with
    | some (f, ',' :: s) => (recordFields fuel s).map (f :: ·)
    | some (f, [')']) => some [f]
    | _ => none

/-- `parse_record_tokens`. -/
def parseRecordTokens (input : Text) : Option (Tokens) :=
  match trim asciiSpace input with
  | '(' :: s => recordFields s.length s
  | _ => none

variable {s : Text} {p : Char → Bool}

theorem not_special (h : s.any (fun c => special c || p c) = false) :
    ∀ c ∈ s, special c = false ∧ p c = false := by
  intro c hc
  have := List.any_eq_false.1 h c hc
  rwa [Bool.not_eq_true, Bool.or_eq_false_iff] at this

variable {c : Char}

theorem ne_of_not_special (h : special c = false) (hd : special d = true) : c ≠ d := by
  rintro rfl
  rw [h] at hd
  contradiction

theorem fieldEnd_eq (h : fieldEnd d = true) : d = ',' ∨ d = ')' := by
  simpa [fieldEnd] using h

/-- A field is read back up to its delimiter. -/
theorem recordField_out (f : Option Text) (hd : fieldEnd d = true) (r : Text) :
    recordField (recordFieldOut f ++ d :: r) = some (f, d :: r) := by
  have hend := fieldEnd_eq hd
  cases f with
  | none => rcases hend with rfl | rfl <;> rfl
  | some s =>
    rw [recordFieldOut]
    by_cases h : recordFieldNeedsQuote s = true
    · rw [if_pos h, quote, List.cons_append, List.append_assoc]
      change (quoted true (escape id s ++ '"' :: (d :: r))).map _ = _
      rw [quoted_escape rfl (Or.inr ⟨rfl, rfl⟩)]
      · rcases hend with rfl | rfl <;> rfl
      · rcases hend with rfl | rfl <;> exact fun _ h => absurd (Option.some.inj h) (by decide)
    · rw [if_neg h]
      rw [recordFieldNeedsQuote, Bool.not_eq_true, Bool.or_eq_false_iff] at h
      have hplain : ∀ c ∈ s, fieldEnd c = false ∧ c ≠ '\\' := by
        intro c hc
        obtain ⟨hs, hp⟩ := not_special h.2 c hc
        have hcomma := ne_of_not_special hs (show special ',' = true from rfl)
        have hparen : c ≠ ')' := by
          rintro rfl
          contradiction
        exact ⟨by simp [fieldEnd, hcomma, hparen], ne_of_not_special hs rfl⟩
      cases s with
      | nil => cases h.1
      | cons c s =>
        have hc := ne_of_not_special (not_special h.2 c List.mem_cons_self).1 (show special '"' = true from rfl)
        have hread := unquoted_plain hd (by rcases hend with rfl | rfl <;> decide) r (c :: s) hplain
        rw [List.cons_append] at hread ⊢
        rw [recordField, hread]
        · rfl
        · exact fun t ht => hc (List.cons.inj ht).1

/-- The fields of a composite are read back. -/
theorem recordFields_out : ∀ (fields : Tokens) (fuel : ℕ), fields ≠ [] → fields.length ≤ fuel →
    recordFields fuel (joined (fields.map recordFieldOut) ++ [')']) = some fields := by
  intro fields
  induction fields with
  | nil => exact fun _ h => absurd rfl h
  | cons f fields ih =>
    intro fuel _ hfuel
    obtain ⟨fuel, rfl⟩ := Nat.exists_eq_add_of_le' (show 1 ≤ fuel by rw [List.length_cons] at hfuel; omega)
    cases fields with
    | nil =>
      rw [recordFields, List.map_singleton, joined, recordField_out f rfl]
      rfl
    | cons g fields =>
      rw [recordFields, List.map_cons, List.map_cons, joined, List.append_assoc, List.cons_append,
        recordField_out f rfl]
      change (recordFields fuel (joined ((g :: fields).map recordFieldOut) ++ [')'])).map _ = _
      rw [ih fuel (List.cons_ne_nil _ _) (by rw [List.length_cons] at hfuel; omega)]
      rfl

theorem trim_eq (hc : p c = false) (hd : p d = false) (s : Text) :
    trim p (c :: (s ++ [d])) = c :: (s ++ [d]) := by
  rw [trim, List.dropWhile_cons, if_neg (by rw [hc]; decide), ← List.cons_append, List.rdropWhile_concat,
    if_neg (by rw [hd]; decide)]

theorem trim_self (h : ∀ c ∈ s, p c = false) : trim p s = s := by
  rw [trim, List.dropWhile_eq_self_iff.2, List.rdropWhile_eq_self_iff.2]
  · intro hne
    rw [h _ (List.getLast_mem hne)]
    decide
  · intro hlen
    rw [h _ (List.getElem_mem hlen)]
    decide

theorem length_joined (ts : List Text) : ts.length ≤ (joined ts).length + 1 := by
  induction ts with
  | nil => exact Nat.zero_le _
  | cons s ts ih =>
    cases ts with
    | nil => exact Nat.le_add_left _ _
    | cons t ts =>
      rw [joined, List.length_append, List.length_cons, List.length_cons]
      rw [List.length_cons] at ih ⊢
      omega

theorem parseRecordTokens_out {fields : Tokens} (h : fields ≠ []) :
    parseRecordTokens (recordOut fields) = some fields := by
  rw [parseRecordTokens, recordOut, trim_eq rfl rfl]
  apply recordFields_out fields _ h
  have := length_joined (fields.map recordFieldOut)
  rw [List.length_map] at this
  rw [List.length_append, List.length_singleton]
  exact this

/-! ## Ranges -/

structure ParsedRange where
  empty : Bool
  lower : Option Text
  upper : Option Text
  lowerInc : Bool
  upperInc : Bool
  deriving DecidableEq

def boundNeedsQuote (s : Text) : Bool :=
  s.isEmpty || s.any fun c => whiteSpace c || c ∈ [',', '[', ']', '(', ')', '"', '\\']

/-- `quote_bound`. -/
def boundOut : Option Text → Text
  | none => []
  | some s => if boundNeedsQuote s then quote (fun _ => '\\') s else s

/-- `range_out`. -/
def rangeOut (r : ParsedRange) : Text :=
  if r.empty then ['e', 'm', 'p', 't', 'y']
  else (if r.lowerInc then '[' else '(') ::
    (boundOut r.lower ++ ',' :: boundOut r.upper ++ [if r.upperInc then ']' else ')'])

def boundEnd (c : Char) : Bool := c ∈ [',', ')', ']']

/-- `scan_bound`, where every character is a byte. -/
def scanBound : Text → Option (Option Text × Text)
  | [] => none
  | '"' :: s => (quoted true s).map fun p => (some p.1, p.2)
  | s =>
    let raw := trim whiteSpace (s.takeWhile fun c => !boundEnd c)
    some (if raw = [] then none else some raw, s.dropWhile fun c => !boundEnd c)

def bracket (inc exc c : Char) : Option Bool := if c = inc then some true else if c = exc then some false else none

/-- `parse_range_text`; none is `22P02`. -/
def parseRangeText (input : Text) : Option ParsedRange :=
  let s := trim whiteSpace input
  if s.map Char.toLower = ['e', 'm', 'p', 't', 'y'] then some ⟨true, none, none, false, false⟩
  else
    match s with
    | [] => none
    | c :: s => do
      let lowerInc ← bracket '[' '(' c
      let lower ← scanBound s
      match lower.2 with
      | ',' :: s => do
        let upper ← scanBound s
        match upper.2 with
        | [d] => (bracket ']' ')' d).map fun upperInc => ⟨false, lower.1, upper.1, lowerInc, upperInc⟩
        | _ => none
      | _ => none

/-- A canonical range: an empty one has no bounds. Its elements are numbers, dates and timestamps, written in
    ASCII. -/
structure ParsedRange.Canonical (r : ParsedRange) : Prop where
  empty : r.empty = true → r = ⟨true, none, none, false, false⟩
  ascii : ∀ s ∈ r.lower.toList ++ r.upper.toList, ∀ c ∈ s, c.toNat < 128

theorem scanBound_out (b : Option Text) (hd : boundEnd d = true) (r : Text) :
    scanBound (boundOut b ++ d :: r) = some (b, d :: r) := by
  have hend : d = ',' ∨ d = ')' ∨ d = ']' := by simpa [boundEnd] using hd
  cases b with
  | none => rcases hend with rfl | rfl | rfl <;> rfl
  | some s =>
    rw [boundOut]
    by_cases h : boundNeedsQuote s = true
    · rw [if_pos h, quote, List.cons_append, List.append_assoc]
      change (quoted true (escape _ s ++ '"' :: (d :: r))).map _ = _
      rw [quoted_escape rfl (Or.inl rfl)]
      · rfl
      · rcases hend with rfl | rfl | rfl <;> exact fun _ h => absurd (Option.some.inj h) (by decide)
    · rw [if_neg h]
      rw [boundNeedsQuote, Bool.not_eq_true, Bool.or_eq_false_iff] at h
      have hplain : ∀ c ∈ s, whiteSpace c = false ∧ boundEnd c = false ∧ c ≠ '"' := by
        intro c hc
        have hc := List.any_eq_false.1 h.2 c hc
        obtain ⟨hspace, hcomma, -, hclose, -, hparen, hmark, -⟩ := by simpa using hc
        exact ⟨hspace, by simp [boundEnd, hcomma, hclose, hparen], hmark⟩
      have htake : (s ++ d :: r).takeWhile (fun c => !boundEnd c) = s := by
        rw [List.takeWhile_append_of_pos fun c hc => by rw [(hplain c hc).2.1]; rfl,
          List.takeWhile_cons_of_neg (by rw [hd]; decide), List.append_nil]
      have hdrop : (s ++ d :: r).dropWhile (fun c => !boundEnd c) = d :: r := by
        rw [List.dropWhile_append_of_pos fun c hc => by rw [(hplain c hc).2.1]; rfl,
          List.dropWhile_cons_of_neg (by rw [hd]; decide)]
      cases s with
      | nil => cases h.1
      | cons c s =>
        rw [List.cons_append] at htake hdrop ⊢
        rw [scanBound, htake, hdrop, trim_self fun c hc => (hplain c hc).1]
        · rfl
        · exact List.cons_ne_nil _ _
        · exact fun t ht => (hplain c List.mem_cons_self).2.2 (List.cons.inj ht).1

/-- A canonical range is read back. -/
theorem parseRangeText_out {r : ParsedRange} (h : r.Canonical) : parseRangeText (rangeOut r) = some r := by
  obtain ⟨empty, lower, upper, lowerInc, upperInc⟩ := r
  cases empty with
  | true =>
    cases h.empty rfl
    rfl
  | false =>
    have hopen : bracket '[' '(' (if lowerInc then '[' else '(') = some lowerInc := by
      cases lowerInc <;> rfl
    have hclose : bracket ']' ')' (if upperInc then ']' else ')') = some upperInc := by
      cases upperInc <;> rfl
    have hspace : whiteSpace (if lowerInc then '[' else '(') = false ∧
        whiteSpace (if upperInc then ']' else ')') = false := by
      cases lowerInc <;> cases upperInc <;> exact ⟨rfl, rfl⟩
    have hend : boundEnd (if upperInc then ']' else ')') = true := by cases upperInc <;> rfl
    have hlower : (if lowerInc then '[' else '(').toLower ≠ 'e' := by cases lowerInc <;> decide
    rw [rangeOut, if_neg Bool.false_ne_true, parseRangeText]
    dsimp only
    rw [trim_eq hspace.1 hspace.2, List.map_cons, if_neg fun h => hlower (List.cons.inj h).1]
    dsimp only
    rw [hopen, List.append_assoc, List.cons_append, Option.bind_eq_bind, Option.bind_some,
      scanBound_out lower rfl]
    change ((scanBound (boundOut upper ++ [if upperInc then ']' else ')'])).bind _) = _
    rw [scanBound_out upper hend]
    change (bracket ']' ')' (if upperInc then ']' else ')')).map _ = _
    rw [hclose]
    rfl

/-! ## Arrays as text -/

/-- An array, as it is and as it is parsed: the sizes of its dimensions, their lower bounds, its elements. -/
structure ParsedArray where
  dims : List ℕ
  lbounds : List ℤ
  tokens : Tokens
  deriving DecidableEq

def isNull (s : Text) : Bool := s.map Char.toLower = ['n', 'u', 'l', 'l']

/-- `array_elem_needs_quote`. -/
def arrayElemNeedsQuote (s : Text) : Bool :=
  s.isEmpty || isNull s || s.any fun c => special c || c ∈ ['{', '}']

/-- `render_array_elem`. -/
def elemOut : Option Text → Text
  | none => ['N', 'U', 'L', 'L']
  | some s => if arrayElemNeedsQuote s then quote (fun _ => '\\') s else s

/-- One item after another out of what there is. -/
def items {β : Type} (item : Tokens → β × Tokens) :
    ℕ → Tokens → List β × Tokens
  | 0, es => ([], es)
  | n + 1, es => ((item es).1 :: (items item n (item es).2).1, (items item n (item es).2).2)

/-- `render_array_dim`: the dimensions that are left, and the elements from the cursor on. -/
def renderDim : List ℕ → Tokens → Text × Tokens
  | [], es => (elemOut (es.headD none), es.tail)
  | n :: dims, es => ('{' :: (joined (items (renderDim dims) n es).1 ++ ['}']), (items (renderDim dims) n es).2)

def intText (v : ℤ) : Text :=
  let digits := (digitsOf v.natAbs).map digitChar
  if v < 0 then '-' :: digits else digits

/-- The prefix of the bounds, before its `=`. -/
def boundsOut (bounds : List (ℤ × ℕ)) : Text :=
  bounds.flatMap fun p => '[' :: (intText p.1 ++ ':' :: (intText (p.1 + p.2 - 1) ++ [']']))

/-- `array_out`. -/
def arrayOut (a : ParsedArray) : Text :=
  if a.tokens = [] then ['{', '}']
  else (if a.lbounds.any (· ≠ 1) then boundsOut (a.lbounds.zip a.dims) ++ ['='] else []) ++
    (renderDim a.dims a.tokens).1

/-! ## Arrays from text -/

inductive ArrayInError where
  | malformed | boundFlip | boundOutOfInt | upperBoundMax | sizeOverflow
  deriving DecidableEq

abbrev Parsed (α : Type) : Type := Except ArrayInError α

inductive Node where
  | leaf (t : Option Text)
  | arr (children : List Node)

def skipWs (s : Text) : Text := s.dropWhile asciiSpace

/-- The digits of a bound, behind its sign. -/
def parseDigits (neg : Bool) (s : Text) : Parsed (ℤ × Text) :=
  let ds := s.takeWhile Char.isDigit
  if ds = [] then .error .malformed
  else
    let n : ℤ := value (ds.map fun c => c.toNat - 48)
    let v := if neg then -n else n
    if -2147483648 ≤ v ∧ v ≤ 2147483647 then .ok (v, s.dropWhile Char.isDigit) else .error .boundOutOfInt

/-- `parse_int`. -/
def parseInt (s : Text) : Parsed (ℤ × Text) :=
  if s.head? = some '-' then parseDigits true s.tail else parseDigits false s

/-- The checks of a declared dimension. -/
def dimension (lb ub : ℤ) : Parsed (ℤ × ℕ) :=
  if ub < lb then .error .boundFlip
  else if ub = 2147483647 then .error .upperBoundMax
  else if ub - lb + 1 > 2147483647 then .error .sizeOverflow
  else .ok (lb, (ub - lb + 1).toNat)

/-- The declared dimensions; each of them takes a character at the least. -/
def parseBounds : ℕ → Text → Parsed (List (ℤ × ℕ) × Text)
  | 0, _ => .error .malformed
  | fuel + 1, '[' :: s => do
    let lb ← parseInt s
    match lb.2 with
    | ':' :: s => do
      let ub ← parseInt s
      match ub.2 with
      | ']' :: s => do
        let d ← dimension lb.1 ub.1
        let rest ← parseBounds fuel s
        return (d :: rest.1, rest.2)
      | _ => .error .malformed
    | _ => .error .malformed
  | _ + 1, s => .ok ([], s)

def elemEnd (c : Char) : Bool := c ∈ [',', '}', '{']

/-- What an unquoted element stands for. -/
def bareElem (s : Text) : Parsed (Option Text) :=
  if s = [] then .error .malformed else if isNull s then .ok none else .ok (some s)

def orMalformed {α : Type} : Option α → Parsed α
  | some a => .ok a
  | none => .error .malformed

/-- `parse_scalar`. -/
def parseScalar (s : Text) : Parsed (Option Text × Text) :=
  match s with
  | '"' :: s => orMalformed ((quoted false s).map fun p => (some p.1, p.2))
  | s => do
    let p ← orMalformed (unquoted elemEnd s)
    let t ← bareElem (trim asciiSpace p.1)
    return (t, p.2)

def maxDim : ℕ := 6

mutual

/-- `parse_node`, under `depth` braces. -/
def parseNode : ℕ → ℕ → Text → Parsed (Node × Text)
  | 0, _, _ => .error .malformed
  | fuel + 1, depth, s =>
    match skipWs s with
    | '{' :: s =>
      if depth ≥ maxDim then .error .malformed
      else
        match skipWs s with
        | '}' :: s => .ok (.arr [], s)
        | s => do
          let children ← parseChildren fuel (depth + 1) s
          return (.arr children.1, children.2)
    | s => do
      let t ← parseScalar s
      return (.leaf t.1, t.2)

def parseChildren : ℕ → ℕ → Text → Parsed (List Node × Text)
  | 0, _, _ => .error .malformed
  | fuel + 1, depth, s => do
    let first ← parseNode fuel depth s
    match skipWs first.2 with
    | ',' :: s => do
      let rest ← parseChildren fuel depth s
      return (first.1 :: rest.1, rest.2)
    | '}' :: s => return ([first.1], s)
    | _ => .error .malformed

end

mutual

/-- `node_dims`. -/
def nodeDims : Node → Parsed (List ℕ)
  | .leaf _ => .ok []
  | .arr children => do
    let shapes ← childDims children
    match shapes with
    | [] => .error .malformed
    | shape :: rest => if rest.all (· = shape) then .ok (children.length :: shape) else .error .malformed

def childDims : List Node → Parsed (List (List ℕ))
  | [] => .ok []
  | c :: cs => do
    let shape ← nodeDims c
    let rest ← childDims cs
    return shape :: rest

end

mutual

/-- `flatten_nodes`. -/
def flattenNode : Node → Tokens
  | .leaf t => [t]
  | .arr children => flattenNodes children

def flattenNodes : List Node → Tokens
  | [] => []
  | c :: cs => flattenNode c ++ flattenNodes cs

end

/-- The array of a brace structure under declared dimensions, none where there is no prefix. -/
def shaped (declared : List (ℤ × ℕ)) : Node → Parsed ParsedArray
  | .leaf _ => .error .malformed
  | .arr children =>
    if children.isEmpty then if declared = [] then .ok ⟨[], [], []⟩ else .error .malformed
    else do
      let dims ← nodeDims (.arr children)
      if dims.length > maxDim then .error .malformed
      else if declared = [] then .ok ⟨dims, dims.map fun _ => 1, flattenNode (.arr children)⟩
      else if declared.map Prod.snd = dims then .ok ⟨dims, declared.map Prod.fst, flattenNode (.arr children)⟩
      else .error .malformed

/-- The optional prefix of the bounds. -/
def parsePrefix (s : Text) : Parsed (List (ℤ × ℕ) × Text) :=
  match s with
  | '[' :: _ => do
    let bounds ← parseBounds (s.length + 1) s
    match bounds.2 with
    | '=' :: s => return (bounds.1, skipWs s)
    | _ => .error .malformed
  | s => .ok ([], s)

/-- `parse_array_literal`; a level of the recursion takes a character at the least, or is under one that does. -/
def parseArrayLiteral (input : Text) : Parsed ParsedArray := do
  let declared ← parsePrefix (trim asciiSpace input)
  let node ← parseNode (2 * declared.2.length + 2) 0 declared.2
  if skipWs node.2 = [] then shaped declared.1 node.1 else .error .malformed

/-! ## The elements are read back -/

theorem elemEnd_eq (h : d = ',' ∨ d = '}') : elemEnd d = true ∧ d ≠ '\\' ∧ asciiSpace d = false := by
  rcases h with rfl | rfl <;> decide

/-- An element begins with neither white space nor a brace, and is read back up to its delimiter. -/
theorem elemOut_spec (e : Option Text) (hd : d = ',' ∨ d = '}') (r : Text) :
    (∃ c t, elemOut e = c :: t ∧ asciiSpace c = false ∧ c ≠ '{' ∧ c ≠ '}') ∧
      parseScalar (elemOut e ++ d :: r) = .ok (e, d :: r) := by
  cases e with
  | none =>
    refine ⟨⟨'N', _, rfl, by decide⟩, ?_⟩
    rcases hd with rfl | rfl <;> rfl
  | some s =>
    rw [elemOut]
    by_cases h : arrayElemNeedsQuote s = true
    · rw [if_pos h, quote]
      refine ⟨⟨'"', _, rfl, by decide⟩, ?_⟩
      rw [List.cons_append, List.append_assoc, parseScalar]
      change orMalformed ((quoted false (escape _ s ++ '"' :: (d :: r))).map _) = _
      rw [quoted_escape rfl (Or.inl rfl) fun h => absurd h Bool.false_ne_true]
      rfl
    · rw [if_neg h]
      rw [arrayElemNeedsQuote, Bool.not_eq_true, Bool.or_eq_false_iff, Bool.or_eq_false_iff] at h
      obtain ⟨⟨hempty, hnull⟩, hany⟩ := h
      have hplain : ∀ c ∈ s, special c = false ∧ c ≠ '{' ∧ c ≠ '}' := by
        intro c hc
        obtain ⟨hs, hp⟩ := not_special hany c hc
        have hp : c ≠ '{' ∧ c ≠ '}' := by simpa using hp
        exact ⟨hs, hp⟩
      have hspace : ∀ c ∈ s, asciiSpace c = false := by
        intro c hc
        obtain ⟨hs, -⟩ := hplain c hc
        rw [← Bool.not_eq_true]
        intro hspace
        have : special c = true := by
          simp only [asciiSpace, List.mem_cons, List.not_mem_nil, or_false, decide_eq_true_eq] at hspace
          rcases hspace with rfl | rfl | rfl | rfl | rfl <;> decide
        rw [hs] at this
        contradiction
      have hread := unquoted_plain (elemEnd_eq hd).1 (elemEnd_eq hd).2.1 r s fun c hc => by
        obtain ⟨hs, hopen, hclose⟩ := hplain c hc
        have hcomma := ne_of_not_special hs (show special ',' = true from rfl)
        exact ⟨by simp [elemEnd, hcomma, hopen, hclose], ne_of_not_special hs rfl⟩
      cases s with
      | nil => cases hempty
      | cons c s =>
        obtain ⟨hs, hopen, hclose⟩ := hplain c List.mem_cons_self
        refine ⟨⟨c, s, rfl, hspace c List.mem_cons_self, hopen, hclose⟩, ?_⟩
        rw [List.cons_append] at hread ⊢
        rw [parseScalar, hread]
        · change ((bareElem (trim asciiSpace (c :: s))).bind _) = _
          rw [trim_self hspace, bareElem, if_neg (List.cons_ne_nil _ _), if_neg (by rw [hnull]; decide)]
          rfl
        · exact fun t ht => ne_of_not_special hs rfl (List.cons.inj ht).1

/-! ## The braces are read back -/

/-- The node of the dimensions that are left, and the elements from the cursor on. -/
def build : List ℕ → Tokens → Node × Tokens
  | [], es => (.leaf (es.headD none), es.tail)
  | n :: dims, es => (.arr (items (build dims) n es).1, (items (build dims) n es).2)

theorem length_items {β : Type} (item : Tokens → β × Tokens) (n : ℕ)
    (es : Tokens) : (items item n es).1.length = n := by
  induction n generalizing es with
  | zero => rfl
  | succ n ih => rw [items, List.length_cons, ih]

theorem items_snd {β γ : Type} {f : Tokens → β × Tokens}
    {g : Tokens → γ × Tokens} (h : ∀ es, (f es).2 = (g es).2) (n : ℕ)
    (es : Tokens) : (items f n es).2 = (items g n es).2 := by
  induction n generalizing es with
  | zero => rfl
  | succ n ih => rw [items, items, h, ih]

theorem renderDim_snd : ∀ (dims : List ℕ) (es : Tokens), (renderDim dims es).2 = (build dims es).2
  | [], _ => rfl
  | n :: dims, es => items_snd (renderDim_snd dims) n es

theorem renderDim_head (dims : List ℕ) (es : Tokens) :
    ∃ c t, (renderDim dims es).1 = c :: t ∧ asciiSpace c = false ∧ c ≠ '}' ∧ (dims = [] → c ≠ '{') := by
  cases dims with
  | nil =>
    obtain ⟨⟨c, t, heq, hspace, hopen, hclose⟩, -⟩ := elemOut_spec (es.headD none) (Or.inl rfl) []
    exact ⟨c, t, heq, hspace, hclose, fun _ => hopen⟩
  | cons n dims => exact ⟨'{', _, rfl, rfl, by decide, fun h => absurd h (List.cons_ne_nil _ _)⟩

theorem skipWs_cons (h : asciiSpace c = false) (s : Text) : skipWs (c :: s) = c :: s := by
  rw [skipWs, List.dropWhile_cons, if_neg (by rw [h]; decide)]

theorem joined_cons (s t : Text) (ts : List Text) : joined (s :: t :: ts) = s ++ ',' :: joined (t :: ts) := rfl

variable {dims : List ℕ}

/-- The items of a level are read back, where one item is. -/
theorem parseChildren_items {depth : ℕ}
    (hitem : ∀ (es : Tokens) (fuel : ℕ) (r : Text), 2 * (renderDim dims es).1.length ≤ fuel →
      (r.head? = some ',' ∨ r.head? = some '}') →
      parseNode fuel depth ((renderDim dims es).1 ++ r) = .ok ((build dims es).1, r)) :
    ∀ (n fuel : ℕ) (es : Tokens) (r : Text),
      2 * (joined (items (renderDim dims) (n + 1) es).1).length + 1 ≤ fuel →
      parseChildren fuel depth (joined (items (renderDim dims) (n + 1) es).1 ++ '}' :: r) =
        .ok ((items (build dims) (n + 1) es).1, r) := by
  intro n
  induction n with
  | zero =>
    intro fuel es r hfuel
    obtain ⟨fuel, rfl⟩ := Nat.exists_eq_add_of_le' (show 1 ≤ fuel by omega)
    change 2 * (renderDim dims es).1.length + 1 ≤ _ at hfuel
    change parseChildren (fuel + 1) depth ((renderDim dims es).1 ++ '}' :: r) = _
    rw [parseChildren, hitem es fuel _ (by omega) (Or.inr rfl)]
    rfl
  | succ n ih =>
    intro fuel es r hfuel
    obtain ⟨fuel, rfl⟩ := Nat.exists_eq_add_of_le' (show 1 ≤ fuel by omega)
    have hjoined : joined (items (renderDim dims) (n + 1 + 1) es).1 = (renderDim dims es).1 ++
        ',' :: joined (items (renderDim dims) (n + 1) (renderDim dims es).2).1 := rfl
    rw [hjoined, List.length_append, List.length_cons] at hfuel
    rw [hjoined, List.append_assoc, List.cons_append, parseChildren, hitem es fuel _ (by omega) (Or.inl rfl)]
    change ((parseChildren fuel depth (joined _ ++ '}' :: r)).bind _) = _
    rw [ih fuel _ r (by omega), renderDim_snd]
    rfl

/-- What the dimensions that are left are rendered to is read back. -/
theorem parseNode_renderDim : ∀ (dims : List ℕ) (es : Tokens) (fuel depth : ℕ) (r : Text),
    (∀ n ∈ dims, 0 < n) → depth + dims.length ≤ maxDim → 2 * (renderDim dims es).1.length ≤ fuel →
    (dims = [] → r.head? = some ',' ∨ r.head? = some '}') →
    parseNode fuel depth ((renderDim dims es).1 ++ r) = .ok ((build dims es).1, r) := by
  intro dims
  induction dims with
  | nil =>
    intro es fuel depth r _ _ hfuel hr
    obtain ⟨c, t, heq, hspace, -, hopen⟩ := renderDim_head [] es
    obtain ⟨fuel, rfl⟩ := Nat.exists_eq_add_of_le'
      (show 1 ≤ fuel by rw [heq, List.length_cons] at hfuel; omega)
    obtain ⟨d, r, rfl⟩ : ∃ d r', r = d :: r' := by
      cases r with
      | nil => rcases hr rfl with h | h <;> cases h
      | cons d r => exact ⟨d, r, rfl⟩
    have hd : d = ',' ∨ d = '}' := (hr rfl).imp Option.some.inj Option.some.inj
    have hscalar := (elemOut_spec (es.headD none) hd r).2
    change parseScalar ((renderDim [] es).1 ++ d :: r) = _ at hscalar
    rw [heq, List.cons_append] at hscalar ⊢
    rw [parseNode, skipWs_cons hspace]
    split
    · next h => exact absurd (List.cons.inj h).1 (hopen rfl)
    · rw [hscalar]
      rfl
  | cons n dims ih =>
    intro es fuel depth r hpos hdepth hfuel _
    obtain ⟨hn, hdims⟩ := List.forall_mem_cons.1 hpos
    obtain ⟨n, rfl⟩ := Nat.exists_eq_add_of_le' hn
    rw [List.length_cons] at hdepth
    have hrender : (renderDim ((n + 1) :: dims) es).1 =
        '{' :: (joined (items (renderDim dims) (n + 1) es).1 ++ ['}']) := rfl
    rw [hrender, List.length_cons, List.length_append, List.length_singleton] at hfuel
    obtain ⟨fuel, rfl⟩ := Nat.exists_eq_add_of_le' (show 1 ≤ fuel by omega)
    have hchildren := parseChildren_items
      (fun es fuel r hfuel hr => ih es fuel (depth + 1) r hdims (by omega) hfuel fun _ => hr) n fuel es r (by omega)
    obtain ⟨c, t, heq, hspace, hclose, -⟩ : ∃ c t, joined (items (renderDim dims) (n + 1) es).1 ++ '}' :: r =
        c :: t ∧ asciiSpace c = false ∧ c ≠ '}' ∧ True := by
      obtain ⟨c, t, heq, hspace, hclose, -⟩ := renderDim_head dims es
      cases n with
      | zero => exact ⟨c, t ++ '}' :: r, congrArg (· ++ '}' :: r) heq, hspace, hclose, trivial⟩
      | succ n =>
        refine ⟨c, t ++ ',' :: (joined (items (renderDim dims) (n + 1) (renderDim dims es).2).1 ++ '}' :: r), ?_,
          hspace, hclose, trivial⟩
        change ((renderDim dims es).1 ++ ',' :: joined (items (renderDim dims) (n + 1) (renderDim dims es).2).1) ++
          '}' :: r = _
        rw [heq, List.append_assoc]
        rfl
    rw [hrender, List.cons_append, List.append_assoc, List.singleton_append, parseNode, skipWs_cons rfl]
    change (if depth ≥ maxDim then _ else _) = _
    rw [if_neg (by omega), heq, skipWs_cons hspace]
    split
    · next h => exact absurd (List.cons.inj h).1 hclose
    · rw [← heq, hchildren]
      rfl

/-! ## The shape of the braces -/

theorem childDims_items (h : ∀ es, nodeDims (build dims es).1 = .ok dims) (n : ℕ)
    (es : Tokens) : childDims (items (build dims) n es).1 = .ok (List.replicate n dims) := by
  induction n generalizing es with
  | zero => rfl
  | succ n ih =>
    rw [items, childDims, h, ih]
    rfl

theorem nodeDims_build (hpos : ∀ n ∈ dims, 0 < n) (es : Tokens) :
    nodeDims (build dims es).1 = .ok dims := by
  induction dims generalizing es with
  | nil => rfl
  | cons n dims ih =>
    obtain ⟨hn, hpos⟩ := List.forall_mem_cons.1 hpos
    rw [build, nodeDims, childDims_items (ih hpos), length_items]
    obtain ⟨n, rfl⟩ := Nat.exists_eq_add_of_le' hn
    change (if (List.replicate n dims).all (· = dims) then Except.ok ((n + 1) :: dims) else _) = _
    exact if_pos (List.all_eq_true.2 fun shape h => decide_eq_true (List.eq_of_mem_replicate h))

theorem flattenNodes_items {m : ℕ} {f : Tokens → Node × Tokens}
    (h : ∀ es, m ≤ es.length → flattenNode (f es).1 ++ (f es).2 = es ∧ (flattenNode (f es).1).length = m)
    (n : ℕ) (es : Tokens) (hlen : n * m ≤ es.length) :
    flattenNodes (items f n es).1 ++ (items f n es).2 = es ∧ (flattenNodes (items f n es).1).length = n * m := by
  induction n generalizing es with
  | zero => exact ⟨rfl, (Nat.zero_mul m).symm⟩
  | succ n ih =>
    rw [Nat.succ_mul] at hlen ⊢
    obtain ⟨happ, hm⟩ := h es (by omega)
    have hrest : n * m ≤ (f es).2.length := by
      have := congrArg List.length happ
      rw [List.length_append, hm] at this
      omega
    obtain ⟨happ', hm'⟩ := ih (f es).2 hrest
    rw [items, flattenNodes, List.append_assoc, happ', happ, List.length_append, hm, hm', Nat.add_comm]
    exact ⟨rfl, rfl⟩

theorem flattenNode_build (dims : List ℕ) (es : Tokens) (h : dims.prod ≤ es.length) :
    flattenNode (build dims es).1 ++ (build dims es).2 = es ∧
      (flattenNode (build dims es).1).length = dims.prod := by
  induction dims generalizing es with
  | nil =>
    cases es with
    | nil => exact absurd h (by decide)
    | cons e es => exact ⟨rfl, rfl⟩
  | cons n dims ih =>
    rw [List.prod_cons] at h ⊢
    exact flattenNodes_items ih n es h

/-! ## The bounds are read back -/

variable {n : ℕ}

theorem digits_text (h : IsDigits (digitsOf n)) (hc : c.isDigit = false) (r : Text) :
    (((digitsOf n).map digitChar ++ c :: r).takeWhile Char.isDigit = (digitsOf n).map digitChar) ∧
    (((digitsOf n).map digitChar ++ c :: r).dropWhile Char.isDigit = c :: r) ∧
    ((digitsOf n).map digitChar).map (fun c => c.toNat - 48) = digitsOf n := by
  have hdigit : ∀ d < 10, (digitChar d).isDigit = true ∧ (digitChar d).toNat - 48 = d := by decide
  have hall : ∀ c ∈ (digitsOf n).map digitChar, c.isDigit = true := by
    intro c hc
    obtain ⟨d, hd, rfl⟩ := List.mem_map.1 hc
    exact (hdigit d (h d hd)).1
  refine ⟨?_, ?_, ?_⟩
  · rw [List.takeWhile_append_of_pos hall, List.takeWhile_cons_of_neg (by rw [hc]; decide), List.append_nil]
  · rw [List.dropWhile_append_of_pos hall, List.dropWhile_cons_of_neg (by rw [hc]; decide)]
  · rw [List.map_map]
    exact (List.map_congr_left fun d hd => (hdigit d (h d hd)).2).trans (List.map_id _)

theorem digitsOf_text (n : ℕ) : IsDigits (digitsOf n) ∧ value (digitsOf n) = n ∧ digitsOf n ≠ [] := by
  by_cases h : n = 0
  · subst h
    refine ⟨fun d hd => ?_, rfl, List.cons_ne_nil _ _⟩
    cases List.mem_singleton.1 hd
    decide
  · obtain ⟨hdigits, hvalue, hne, -⟩ := digitsOf_spec h
    exact ⟨hdigits, hvalue, hne⟩

theorem parseDigits_text {neg : Bool} {v : ℤ} (hv : (if neg then -(n : ℤ) else n) = v)
    (hmin : -2147483648 ≤ v) (hmax : v ≤ 2147483647) (hc : c.isDigit = false) (r : Text) :
    parseDigits neg ((digitsOf n).map digitChar ++ c :: r) = .ok (v, c :: r) := by
  obtain ⟨hdigits, hvalue, hne⟩ := digitsOf_text n
  obtain ⟨htake, hdrop, hmap⟩ := digits_text hdigits hc r
  rw [parseDigits, htake, hdrop, hmap, hvalue]
  dsimp only
  rw [if_neg fun h => hne (List.map_eq_nil_iff.1 h), hv, if_pos ⟨hmin, hmax⟩]

/-- A bound is read back up to what is behind it. -/
theorem parseInt_intText {v : ℤ} (hmin : -2147483648 ≤ v) (hmax : v ≤ 2147483647)
    (hc : c.isDigit = false) (r : Text) : parseInt (intText v ++ c :: r) = .ok (v, c :: r) := by
  rw [intText]
  by_cases h : v < 0
  · rw [if_pos h]
    change parseDigits true ((digitsOf v.natAbs).map digitChar ++ c :: r) = _
    exact parseDigits_text (by rw [if_pos rfl]; omega) hmin hmax hc r
  · have hhead : ((digitsOf v.natAbs).map digitChar ++ c :: r).head? ≠ some '-' := by
      obtain ⟨hdigits, -, hne⟩ := digitsOf_text v.natAbs
      obtain ⟨d, ds, hds⟩ := List.exists_cons_of_ne_nil hne
      have hd : d < 10 := hdigits d (hds ▸ List.mem_cons_self)
      have : ∀ d < 10, digitChar d ≠ '-' := by decide
      rw [hds]
      exact fun h => this d hd (Option.some.inj h)
    rw [if_neg h, parseInt, if_neg hhead]
    exact parseDigits_text (by rw [if_neg Bool.false_ne_true]; omega) hmin hmax hc r

/-- Bounds that `array_in` takes. -/
def BoundsOk (bounds : List (ℤ × ℕ)) : Prop :=
  ∀ p ∈ bounds, -2147483648 ≤ p.1 ∧ 0 < p.2 ∧ p.2 ≤ 2147483647 ∧ p.1 + p.2 ≤ 2147483647

theorem parseBounds_out {bounds : List (ℤ × ℕ)} (h : BoundsOk bounds) (r : Text) :
    ∀ fuel, (boundsOut bounds).length < fuel →
      parseBounds fuel (boundsOut bounds ++ '=' :: r) = .ok (bounds, '=' :: r) := by
  induction bounds with
  | nil =>
    intro fuel hfuel
    obtain ⟨fuel, rfl⟩ := Nat.exists_eq_add_of_le' hfuel
    rfl
  | cons p bounds ih =>
    intro fuel hfuel
    obtain ⟨fuel, rfl⟩ := Nat.exists_eq_add_of_le' (show 1 ≤ fuel by omega)
    obtain ⟨⟨hmin, hpos, hsize, hmax⟩, h⟩ := List.forall_mem_cons.1 h
    have hout : boundsOut (p :: bounds) = '[' :: (intText p.1 ++ ':' :: (intText (p.1 + p.2 - 1) ++
        ']' :: boundsOut bounds)) := by
      simp [boundsOut]
    have hdim : dimension p.1 (p.1 + p.2 - 1) = .ok p := by
      rw [dimension, if_neg (by omega), if_neg (by omega), if_neg (by omega)]
      congr 2
      omega
    rw [hout] at hfuel ⊢
    simp only [List.length_cons, List.length_append] at hfuel
    rw [List.cons_append, List.append_assoc, List.cons_append, List.append_assoc, List.cons_append, parseBounds,
      parseInt_intText hmin (by omega) rfl]
    change ((parseInt (intText (p.1 + p.2 - 1) ++ ']' :: (boundsOut bounds ++ '=' :: r))).bind _) = _
    rw [parseInt_intText (by omega) (by omega) rfl]
    change ((dimension p.1 (p.1 + p.2 - 1)).bind _) = _
    rw [hdim]
    change ((parseBounds fuel (boundsOut bounds ++ '=' :: r)).bind _) = _
    rw [ih h fuel (by omega)]
    rfl

/-! ## Arrays -/

/-- The arrays that their own text declares: one element for each place, at most six dimensions, and, where a
    lower bound is not one, bounds that `array_in` takes. -/
structure ParsedArray.Declarable (a : ParsedArray) : Prop where
  sizes : ∀ n ∈ a.dims, 0 < n
  bounds : a.lbounds.length = a.dims.length
  places : a.dims ≠ [] → a.tokens.length = a.dims.prod
  empty : a.dims = [] → a.tokens = []
  ndim : a.dims.length ≤ maxDim
  within : (∃ lb ∈ a.lbounds, lb ≠ 1) → BoundsOk (a.lbounds.zip a.dims)

variable {a : ParsedArray}

theorem shaped_build {es : Tokens} {declared : List (ℤ × ℕ)}
    (hpos : ∀ k ∈ n :: dims, 0 < k) (hndim : (n :: dims).length ≤ maxDim) (hlen : es.length = (n :: dims).prod) :
    shaped declared (build (n :: dims) es).1 =
      if declared = [] then .ok ⟨n :: dims, (n :: dims).map fun _ => 1, es⟩
      else if declared.map Prod.snd = n :: dims then .ok ⟨n :: dims, declared.map Prod.fst, es⟩
      else .error .malformed := by
  obtain ⟨happ, hflat⟩ := flattenNode_build (n :: dims) es hlen.ge
  have hes : flattenNode (build (n :: dims) es).1 = es :=
    (List.append_inj (happ.trans (List.append_nil es).symm) (hflat.trans hlen.symm)).1
  have hdims := nodeDims_build hpos es
  rw [build] at hes hdims ⊢
  have hne : (items (build dims) n es).1.isEmpty = false := by
    rw [List.isEmpty_eq_false_iff, ← List.length_pos_iff, length_items]
    exact hpos n List.mem_cons_self
  rw [shaped, hne, if_neg Bool.false_ne_true, hdims, hes]
  change (if (n :: dims).length > maxDim then _ else _) = _
  rw [if_neg (by omega)]

theorem parsePrefix_out {bounds : List (ℤ × ℕ)} (h : BoundsOk bounds) (hne : bounds ≠ []) (r : Text) :
    parsePrefix (boundsOut bounds ++ '=' :: r) = .ok (bounds, skipWs r) := by
  obtain ⟨p, ps, rfl⟩ := List.exists_cons_of_ne_nil hne
  have hread := parseBounds_out h r ((boundsOut (p :: ps) ++ '=' :: r).length + 1)
    (by rw [List.length_append]; omega)
  change ((parseBounds _ (boundsOut (p :: ps) ++ '=' :: r)).bind _) = _
  rw [hread]
  rfl

/-- Behind the prefix, what the braces are read to is shaped. -/
theorem parseArrayLiteral_braces {body : Text} {es : Tokens}
    {declared : List (ℤ × ℕ)} (hbody : (renderDim (n :: dims) es).1 = body)
    (hfront : parsePrefix (trim asciiSpace s) = .ok (declared, body)) (hpos : ∀ k ∈ n :: dims, 0 < k)
    (hndim : (n :: dims).length ≤ maxDim) : parseArrayLiteral s = shaped declared (build (n :: dims) es).1 := by
  subst hbody
  have hnode := parseNode_renderDim (n :: dims) es (2 * (renderDim (n :: dims) es).1.length + 2) 0 [] hpos
    (by rwa [Nat.zero_add]) (by omega) fun h => absurd h (List.cons_ne_nil _ _)
  rw [List.append_nil] at hnode
  rw [parseArrayLiteral, hfront]
  change ((parseNode _ 0 (renderDim (n :: dims) es).1).bind _) = _
  rw [hnode]
  dsimp only [Except.bind]
  rw [if_pos (show skipWs [] = [] from rfl)]

/-- An array is read back from its text. -/
theorem parseArrayLiteral_out (h : a.Declarable) : parseArrayLiteral (arrayOut a) = .ok a := by
  obtain ⟨dims, lbounds, tokens⟩ := a
  cases dims with
  | nil =>
    cases List.eq_nil_of_length_eq_zero h.bounds
    cases h.empty rfl
    rfl
  | cons n dims =>
    have hlen : tokens.length = (n :: dims).prod := h.places (List.cons_ne_nil _ _)
    have hne : tokens ≠ [] := by
      rw [← List.length_pos_iff, hlen]
      exact List.prod_pos h.sizes
    obtain ⟨j, hj⟩ : ∃ j, (renderDim (n :: dims) tokens).1 = '{' :: (j ++ ['}']) := ⟨_, rfl⟩
    have hlbounds : lbounds.length = (n :: dims).length := h.bounds
    rw [arrayOut, if_neg hne]
    dsimp only
    rw [hj]
    by_cases hany : lbounds.any (· ≠ 1) = true
    · obtain ⟨lb, hlb, hlb1⟩ := List.any_eq_true.1 hany
      have hok := h.within ⟨lb, hlb, of_decide_eq_true hlb1⟩
      dsimp only at hok
      generalize hzip : lbounds.zip (n :: dims) = bounds at hok ⊢
      have hbounds : bounds ≠ [] := by
        cases lbounds with
        | nil => cases hlb
        | cons l lbounds => exact hzip ▸ List.cons_ne_nil _ _
      obtain ⟨t, ht⟩ : ∃ t, boundsOut bounds = '[' :: t := by
        obtain ⟨p, ps, hps⟩ := List.exists_cons_of_ne_nil hbounds
        exact ⟨_, congrArg boundsOut hps⟩
      have htrim : trim asciiSpace (boundsOut bounds ++ ['='] ++ '{' :: (j ++ ['}'])) =
          boundsOut bounds ++ '=' :: '{' :: (j ++ ['}']) := by
        have := trim_eq (p := asciiSpace) (c := '[') (d := '}') rfl rfl (t ++ '=' :: '{' :: j)
        rw [List.append_assoc, List.singleton_append, ht]
        simpa only [List.append_assoc, List.cons_append] using this
      have hfront := parsePrefix_out hok hbounds ('{' :: (j ++ ['}']))
      rw [← htrim, skipWs_cons rfl] at hfront
      rw [if_pos hany, parseArrayLiteral_braces hj hfront h.sizes h.ndim,
        shaped_build h.sizes h.ndim hlen, if_neg hbounds, ← hzip, List.map_snd_zip hlbounds.ge, if_pos rfl,
        List.map_fst_zip hlbounds.le]
    · have hones : lbounds = (n :: dims).map fun _ => 1 := by
        rw [List.map_const']
        refine List.eq_replicate_iff.2 ⟨hlbounds, fun lb hlb => ?_⟩
        by_contra hlb1
        exact hany (List.any_eq_true.2 ⟨lb, hlb, decide_eq_true hlb1⟩)
      have hfront : parsePrefix (trim asciiSpace ('{' :: (j ++ ['}']))) = .ok ([], '{' :: (j ++ ['}'])) := by
        rw [trim_eq rfl rfl]
        rfl
      rw [if_neg hany, List.nil_append, parseArrayLiteral_braces hj hfront h.sizes h.ndim,
        shaped_build h.sizes h.ndim hlen, if_pos rfl, hones]

/-! ## Containers in containers -/

mutual

/-- What a text is written from: the text of a scalar, a range, or a container of such. -/
inductive Doc where
  | scalar (t : Text)
  | range (r : ParsedRange)
  | record (fields : Docs)
  | array (dims : List ℕ) (lbounds : List ℤ) (elements : Docs)

inductive Docs where
  | nil
  | null (rest : Docs)
  | cons (d : Doc) (rest : Docs)

end

mutual

def Doc.text : Doc → Text
  | .scalar t => t
  | .range r => rangeOut r
  | .record fields => recordOut fields.tokens
  | .array dims lbounds elements => arrayOut ⟨dims, lbounds, elements.tokens⟩

def Docs.tokens : Docs → Tokens
  | .nil => []
  | .null rest => none :: rest.tokens
  | .cons d rest => some d.text :: rest.tokens

end

mutual

/-- What the parsers read back of a composite of at least one field, a declarable array or a canonical range. -/
def Doc.WellFormed : Doc → Prop
  | .scalar _ => True
  | .range r => r.Canonical
  | .record fields => fields.tokens ≠ [] ∧ fields.WellFormed
  | .array dims lbounds elements =>
    ParsedArray.Declarable ⟨dims, lbounds, elements.tokens⟩ ∧ elements.WellFormed

def Docs.WellFormed : Docs → Prop
  | .nil => True
  | .null rest => rest.WellFormed
  | .cons d rest => d.WellFormed ∧ rest.WellFormed

end

mutual

/-- A text is read back to a document: its parts' texts are, by the parser of each. -/
def Doc.ReadFrom : Doc → Text → Prop
  | .scalar t, s => s = t
  | .range r, s => parseRangeText s = some r
  | .record fields, s => ∃ tokens, parseRecordTokens s = some tokens ∧ fields.ReadFrom tokens
  | .array dims lbounds elements, s =>
    ∃ tokens, parseArrayLiteral s = .ok ⟨dims, lbounds, tokens⟩ ∧ elements.ReadFrom tokens

def Docs.ReadFrom : Docs → Tokens → Prop
  | .nil, tokens => tokens = []
  | .null rest, tokens => ∃ ts, tokens = none :: ts ∧ rest.ReadFrom ts
  | .cons d rest, tokens => ∃ t ts, tokens = some t :: ts ∧ d.ReadFrom t ∧ rest.ReadFrom ts

end

mutual

theorem Doc.readFrom_text : ∀ d : Doc, d.WellFormed → d.ReadFrom d.text
  | .scalar _, _ => rfl
  | .range _, h => parseRangeText_out h
  | .record fields, h => ⟨fields.tokens, parseRecordTokens_out h.1, fields.readFrom_tokens h.2⟩
  | .array _ _ elements, h => ⟨elements.tokens, parseArrayLiteral_out h.1, elements.readFrom_tokens h.2⟩

theorem Docs.readFrom_tokens : ∀ ds : Docs, ds.WellFormed → ds.ReadFrom ds.tokens
  | .nil, _ => rfl
  | .null rest, h => ⟨rest.tokens, rfl, rest.readFrom_tokens h⟩
  | .cons d rest, h => ⟨d.text, rest.tokens, rfl, d.readFrom_text h.1, rest.readFrom_tokens h.2⟩

end

/-- The texts of containers are read back, at every depth. -/
theorem text_roundTrip :
    (∀ a : ParsedArray, a.Declarable → parseArrayLiteral (arrayOut a) = .ok a) ∧
    (∀ fields : Tokens, fields ≠ [] → parseRecordTokens (recordOut fields) = some fields) ∧
    (∀ r : ParsedRange, r.Canonical → parseRangeText (rangeOut r) = some r) ∧
    ∀ d : Doc, d.WellFormed → d.ReadFrom d.text :=
  ⟨fun _ => parseArrayLiteral_out, fun _ => parseRecordTokens_out, fun _ => parseRangeText_out,
    Doc.readFrom_text⟩

/-- A composite of an array under a lower bound of its own, whose elements spell `NULL` and are NULL. -/
theorem text_roundTrip_nested :
    (Doc.record (.cons (.array [2] [5] (.cons (.scalar ['n', 'u', 'l', 'l']) (.null .nil))) .nil)).ReadFrom
      (Doc.record (.cons (.array [2] [5] (.cons (.scalar ['n', 'u', 'l', 'l']) (.null .nil))) .nil)).text :=
  text_roundTrip.2.2.2 _ ⟨List.cons_ne_nil _ _, ⟨⟨by decide, rfl, fun _ => rfl, fun h => absurd h (by decide),
    by decide, fun _ => by unfold BoundsOk; decide⟩, trivial, trivial⟩, trivial⟩

/-- No fields, an upper bound that is the greatest integer, and seven dimensions are not read back. -/
theorem text_not_roundTrip :
    parseRecordTokens (recordOut []) = some [none] ∧
    parseArrayLiteral (arrayOut ⟨[3], [2147483645], [some ['0'], some ['1'], some ['2']]⟩) =
      .error .upperBoundMax ∧
    parseArrayLiteral (arrayOut ⟨[1, 1, 1, 1, 1, 1, 1], [1, 1, 1, 1, 1, 1, 1], [some ['1']]⟩) =
      .error .malformed := by
  decide +kernel

/-! ## What is accepted -/

open Results

theorem recordFields_ne_nil : ∀ {fuel : ℕ} {s : Text} {fields : Tokens},
    recordFields fuel s = some fields → fields ≠ [] := by
  intro fuel s fields h
  cases fuel with
  | zero => cases h
  | succ fuel =>
    rw [recordFields] at h
    split at h
    · obtain ⟨fields, -, rfl⟩ := Option.map_eq_some_iff.mp h
      exact List.cons_ne_nil _ _
    · cases h
      exact List.cons_ne_nil _ _
    · cases h

mutual

theorem nodeDims_spec : ∀ (node : Node) {dims : List ℕ}, nodeDims node = .ok dims →
    (∀ n ∈ dims, 0 < n) ∧ (flattenNode node).length = dims.prod
  | .leaf t, dims, h => by
    cases h
    exact ⟨by simp, rfl⟩
  | .arr children, dims, h => by
    rw [nodeDims] at h
    obtain ⟨shapes, hshapes, h⟩ := bind_eq_ok.mp h
    cases shapes with
    | nil => cases h
    | cons shape rest =>
      dsimp only at h
      split at h
      · rename_i hall
        cases h
        have hsame : ∀ s ∈ shape :: rest, s = shape := by simpa using hall
        obtain ⟨hlen, hpos, hflat⟩ := childDims_spec children hshapes hsame
        refine ⟨List.forall_mem_cons.mpr ⟨?_, hpos (by simp)⟩, ?_⟩
        · rw [← hlen]
          exact Nat.succ_pos _
        · rw [flattenNode, hflat, List.prod_cons]
      · cases h

theorem childDims_spec : ∀ (children : List Node) {shapes : List (List ℕ)} {shape : List ℕ},
    childDims children = .ok shapes → (∀ s ∈ shapes, s = shape) →
      shapes.length = children.length ∧ (shapes ≠ [] → ∀ n ∈ shape, 0 < n) ∧
        (flattenNodes children).length = children.length * shape.prod
  | [], shapes, shape, h, _ => by
    cases h
    exact ⟨rfl, fun h => absurd rfl h, (Nat.zero_mul _).symm⟩
  | c :: cs, shapes, shape, h, hsame => by
    rw [childDims] at h
    obtain ⟨first, hfirst, h⟩ := bind_eq_ok.mp h
    obtain ⟨rest, hrest, h⟩ := bind_eq_ok.mp h
    cases h
    obtain ⟨rfl, hsame⟩ := List.forall_mem_cons.mp hsame
    obtain ⟨hpos, hflat⟩ := nodeDims_spec c hfirst
    obtain ⟨hlen, -, hmore⟩ := childDims_spec cs hrest hsame
    refine ⟨congrArg Nat.succ hlen, fun _ => hpos, ?_⟩
    rw [flattenNodes, List.length_append, hflat, hmore, List.length_cons]
    ring

end

theorem parseInt_range {s : Text} {p : ℤ × Text} (h : parseInt s = .ok p) :
    -2147483648 ≤ p.1 ∧ p.1 ≤ 2147483647 := by
  have hdigits : ∀ {neg s}, parseDigits neg s = .ok p → -2147483648 ≤ p.1 ∧ p.1 ≤ 2147483647 := by
    intro neg s h
    unfold parseDigits at h
    dsimp only at h
    generalize (if neg then _ else _ : ℤ) = v at h
    split at h
    · cases h
    · split at h
      · rename_i hrange
        cases h
        exact hrange
      · cases h
  unfold parseInt at h
  split at h <;> exact hdigits h

theorem dimension_ok {lb ub : ℤ} {d : ℤ × ℕ} (hmin : -2147483648 ≤ lb) (hmax : ub ≤ 2147483647)
    (h : dimension lb ub = .ok d) :
    -2147483648 ≤ d.1 ∧ 0 < d.2 ∧ d.2 ≤ 2147483647 ∧ d.1 + d.2 ≤ 2147483647 := by
  unfold dimension at h
  split at h
  · cases h
  · split at h
    · cases h
    · split at h
      · cases h
      · cases h
        dsimp only
        omega

theorem parseBounds_ok {fuel : ℕ} {s : Text} {p : List (ℤ × ℕ) × Text} (h : parseBounds fuel s = .ok p) :
    BoundsOk p.1 := by
  fun_induction parseBounds fuel s generalizing p with
  | case1 => cases h
  | case2 fuel s ih =>
    obtain ⟨lb, hlb, h⟩ := bind_eq_ok.mp h
    split at h
    · obtain ⟨ub, hub, h⟩ := bind_eq_ok.mp h
      split at h
      · obtain ⟨d, hd, h⟩ := bind_eq_ok.mp h
        obtain ⟨rest, hrest, h⟩ := bind_eq_ok.mp h
        cases h
        have hmore := ih _ hrest
        exact List.forall_mem_cons.mpr
          ⟨dimension_ok (parseInt_range hlb).1 (parseInt_range hub).2 hd, hmore⟩
      · cases h
    · cases h
  | case3 =>
    cases h
    exact fun _ h => by cases h

theorem parsePrefix_ok {s : Text} {p : List (ℤ × ℕ) × Text} (h : parsePrefix s = .ok p) : BoundsOk p.1 := by
  unfold parsePrefix at h
  split at h
  · obtain ⟨bounds, hbounds, h⟩ := bind_eq_ok.mp h
    have hok := parseBounds_ok hbounds
    split at h
    · cases h
      exact hok
    · cases h
  · cases h
    exact fun _ h => by cases h

theorem shaped_ok {declared : List (ℤ × ℕ)} {node : Node} (hdeclared : BoundsOk declared)
    (h : shaped declared node = .ok a) : a.Declarable := by
  cases node with
  | leaf t => cases h
  | arr children =>
    rw [shaped] at h
    split at h
    · split at h
      · cases h
        exact ⟨by simp, rfl, fun h => absurd rfl h, fun _ => rfl, Nat.zero_le _, by simp⟩
      · cases h
    · obtain ⟨dims, hdims, h⟩ := bind_eq_ok.mp h
      obtain ⟨hpos, hlen⟩ := nodeDims_spec _ hdims
      have hne : dims ≠ [] := fun hnil => by
        subst hnil
        unfold nodeDims at hdims
        obtain ⟨shapes, -, hdims⟩ := bind_eq_ok.mp hdims
        split at hdims
        · cases hdims
        · split at hdims <;> cases hdims
      split at h
      · cases h
      · rename_i hndim
        split at h
        · cases h
          exact ⟨hpos, List.length_map .., fun _ => hlen, fun h => absurd h hne, not_lt.mp hndim, by simp⟩
        · split at h
          · rename_i hsnd
            cases h
            refine ⟨hpos, by simp [← hsnd], fun _ => hlen, fun h => absurd h hne, not_lt.mp hndim, fun _ => ?_⟩
            rw [← hsnd, List.zip_map', List.map_id']
            exact hdeclared
          · cases h

theorem parseArrayLiteral_ok {s : Text} (h : parseArrayLiteral s = .ok a) : a.Declarable := by
  unfold parseArrayLiteral at h
  obtain ⟨declared, hdeclared, h⟩ := bind_eq_ok.mp h
  obtain ⟨node, -, h⟩ := bind_eq_ok.mp h
  split at h
  · exact shaped_ok (parsePrefix_ok hdeclared) h
  · cases h

/-- A text that is accepted, as an array or a composite, is read to one that its own text is read to. -/
theorem text_normalized :
    (∀ s a, parseArrayLiteral s = .ok a → a.Declarable ∧ parseArrayLiteral (arrayOut a) = .ok a) ∧
      ∀ s fields, parseRecordTokens s = some fields → parseRecordTokens (recordOut fields) = some fields := by
  refine ⟨fun s a h => ⟨parseArrayLiteral_ok h, parseArrayLiteral_out (parseArrayLiteral_ok h)⟩,
    fun s fields h => parseRecordTokens_out ?_⟩
  unfold parseRecordTokens at h
  split at h
  · exact recordFields_ne_nil h
  · cases h

/-- A spaced array and a composite with a quoted field. -/
theorem text_normalized_spaced :
    (ParsedArray.Declarable ⟨[2], [1], [some ['a'], none]⟩ ∧
      parseArrayLiteral (arrayOut ⟨[2], [1], [some ['a'], none]⟩) = .ok ⟨[2], [1], [some ['a'], none]⟩) ∧
    parseRecordTokens (recordOut [some ['a'], none]) = some [some ['a'], none] :=
  ⟨text_normalized.1 [' ', '{', 'a', ' ', ',', ' ', 'n', 'u', 'l', 'l', '}'] _ rfl,
    text_normalized.2 ['(', '"', 'a', '"', ',', ')', ' '] _ rfl⟩

end Jed.Containers
