import Jed.Sql.Lexer
import Jed.Sql.Numbers

/-!
# Pieces of a text

The statement splitter (`split_statements`, `split.rs`), over the bytes of the text. What one turn of
the lexer takes, and that the splitter marks the same bytes: blanks and comments as nothing, a token as
a part of a statement. A hyphen after an operator that ends in one is the exception.
-/

namespace Jed.Sql

/-- `StatementSpan`. -/
structure StatementSpan where
  text : Bytes
  offset : ℕ
  deriving DecidableEq

/-- What the scan makes of some bytes: nothing, the end of a statement, or a part of one. -/
inductive Mark where
  | blank
  | separator
  | significant
  deriving DecidableEq

/-- The rest of a block comment open `depth` deep, to the end of the input at the latest. -/
def skipBlock : ℕ → Bytes → ℕ
  | 0, _ => 0
  | _ + 1, [] => 0
  | _ + 1, [_] => 1
  | depth + 1, b :: b' :: rest =>
    if is b '/' && is b' '*' then 2 + skipBlock (depth + 2) rest
    else if is b '*' && is b' '/' then 2 + skipBlock depth rest
    else 1 + skipBlock (depth + 1) (b' :: rest)

/-- The rest of a quoted body with its closing quote, to the end of the input at the latest. -/
def skipQuoted (quote : UInt8) : Bytes → ℕ
  | [] => 0
  | [_] => 1
  | b :: b' :: rest =>
    if b == quote then if b' == quote then 2 + skipQuoted quote rest else 1
    else 1 + skipQuoted quote (b' :: rest)

/-- `dollar_tag_len`, of the bytes after the first `$`. -/
def dollarTagLen : Bytes → Option ℕ
  | [] => none
  | b :: rest =>
    if is b '$' then some 2
    else if isAlpha b || is b '_' then
      let tag := rest.takeWhile isWordByte
      if startsWith ['$'] (rest.drop tag.length) then some (tag.length + 3) else none
    else none

/-- The rest of a dollar-quoted string with its closing delimiter, to the end of the input at the
latest. -/
def skipDollar (delimiter : Bytes) : Bytes → ℕ
  | [] => 0
  | b :: rest =>
    if delimiter.isPrefixOf (b :: rest) then delimiter.length else 1 + skipDollar delimiter rest

/-- One turn of the loop of `SplitStatements::next` at the byte `b`: what it marks, and how many
bytes it takes after `b`. -/
def chunk (b : UInt8) (rest : Bytes) : Mark × ℕ :=
  if isBlank b then (.blank, 0)
  else if is b ';' then (.separator, 0)
  else if is b '-' && startsWith ['-'] rest then
    (.blank, 1 + (rest.tail.takeWhile fun b => !isEol b).length)
  else if is b '/' && startsWith ['*'] rest then (.blank, 1 + skipBlock 1 rest.tail)
  else if is b '\'' || is b '"' then (.significant, skipQuoted b rest)
  else if is b '$' then
    match dollarTagLen rest with
    | some tagLen =>
      let delimiter := (b :: rest).take tagLen
      (.significant, tagLen - 1 + skipDollar delimiter (rest.drop (tagLen - 1)))
    | none => (.significant, 0)
  else (.significant, 0)

/-- The loop of `SplitStatements::next` at byte `i`, with `skip` bytes still to pass over: where the
statement it finds starts and ends, and where the scan stands then. -/
def nextSpan : Bytes → (skip i : ℕ) → Option ℕ → ℕ → Option (ℕ × ℕ) × ℕ
  | [], _, i, start, lastEnd => (start.map (·, lastEnd), i)
  | _ :: rest, skip + 1, i, start, lastEnd => nextSpan rest skip (i + 1) start lastEnd
  | b :: rest, 0, i, start, lastEnd =>
    match chunk b rest with
    | (.blank, n) => nextSpan rest n (i + 1) start lastEnd
    | (.separator, n) =>
      match start with
      | some s => (some (s, lastEnd), i + 1 + n)
      | none => nextSpan rest n (i + 1) none lastEnd
    | (.significant, n) => nextSpan rest n (i + 1) (some (start.getD i)) (i + 1 + n)

/-- `SplitStatements::next`. -/
def SplitStatements.next (sql : Bytes) (pos : ℕ) : Option StatementSpan × ℕ :=
  let (span, pos) := nextSpan (sql.drop pos) 0 pos none pos
  (span.map fun (s, e) => ⟨(sql.drop s).take (e - s), s⟩, pos)

/-- The spans the iterator yields from `pos` on, as far as `fuel` calls reach. -/
def spansFrom (sql : Bytes) : (fuel pos : ℕ) → List StatementSpan
  | 0, _ => []
  | fuel + 1, pos =>
    match SplitStatements.next sql pos with
    | (some span, pos) => span :: spansFrom sql fuel pos
    | (none, _) => []

/-- `split_statements`: a call that yields a span passes a byte, so that these are all of them. -/
def splitStatements (sql : Bytes) : List StatementSpan := spansFrom sql (sql.length + 1) 0

example : splitStatements ("SELECT 1; SELECT 2".toUTF8.toList) =
    [⟨"SELECT 1".toUTF8.toList, 0⟩, ⟨"SELECT 2".toUTF8.toList, 10⟩] := by decide +kernel

open Results

/-- What one turn of the lexer at `b` takes. -/
inductive Taken (b : UInt8) (rest : Bytes) : Option (Token × Bool) → ℕ → Prop
  | blank : isBlank b = true → Taken b rest none 0
  | line : is b '-' = true → startsWith ['-'] rest = true →
      Taken b rest none (1 + (rest.tail.takeWhile fun b => !isEol b).length)
  | block {n : ℕ} : is b '/' = true → startsWith ['*'] rest = true →
      scanBlock 1 rest.tail = some n → Taken b rest none (1 + n)
  | operator {op : Char × List (List Char × Token) × Option Token} {tok : Token} {n : ℕ} :
      op ∈ operators → is b op.1 = true → (is b '-' && startsWith ['-'] rest) = false →
      (is b '/' && startsWith ['*'] rest) = false → greedy b op.2.1 op.2.2 rest = .ok (tok, n) →
      Taken b rest (some (tok, false)) n
  | quoted {buf : Bytes} {tok : Token} {n : ℕ} : (is b '\'' || is b '"') = true →
      scanQuotedBody b rest = some (buf, n) → quotedToken b buf false = .ok tok →
      Taken b rest (some (tok, false)) n
  | escaped {buf : Bytes} {tok : Token} {n : ℕ} : (is b 'u' || is b 'U') = true →
      beginsEscaped rest = true →
      scanQuotedBody (rest.getD 1 0) (rest.drop 2) = some (buf, n) →
      quotedToken (rest.getD 1 0) buf true = .ok tok → Taken b rest (some (tok, true)) (2 + n)
  | number {tok : Token} {n : ℕ} : scanNumber (b :: rest) = .ok (tok, n + 1) →
      Taken b rest (some (tok, false)) n
  | dot : is b '.' = true → Taken b rest (some (.dot, false)) 0
  | param {tok : Token} {n : ℕ} : is b '$' = true → scanParam rest = .ok (tok, n) →
      Taken b rest (some (tok, false)) n
  | word {w : Bytes} : (isAlpha b || is b '_') = true →
      Taken b rest (some (.word w, false)) (rest.takeWhile isWordByte).length

variable {b : UInt8} {rest : Bytes} {n : ℕ} {o : Option (Token × Bool)}

theorem taken_of_step (h : step b rest = .ok (o, n)) : Taken b rest o n := by
  unfold step at h
  split at h
  case isTrue hb =>
    cases h
    exact .blank hb
  split at h
  case isTrue hline =>
    rw [Bool.and_eq_true] at hline
    cases h
    exact .line hline.1 hline.2
  case isFalse hline =>
  split at h
  case isTrue hblock =>
    rw [Bool.and_eq_true] at hblock
    split at h
    case h_1 n hn =>
      cases h
      exact .block hblock.1 hblock.2 hn
    case h_2 => cases h
  case isFalse hblock =>
  split at h
  case h_1 op hop =>
    obtain ⟨⟨tok, n⟩, hgreedy, h⟩ := bind_eq_ok.mp h
    cases h
    have hb := List.find?_some hop
    exact .operator (List.mem_of_find?_eq_some hop) hb (by simpa using hline) (by simpa using hblock)
      hgreedy
  case h_2 =>
  split at h
  case isTrue hquote =>
    split at h
    case h_1 buf n hn =>
      obtain ⟨tok, htok, h⟩ := bind_eq_ok.mp h
      cases h
      exact .quoted hquote hn htok
    case h_2 => cases h
  split at h
  case isTrue hescape =>
    rw [Bool.and_eq_true] at hescape
    dsimp only at h
    split at h
    case h_1 buf n hn =>
      obtain ⟨tok, htok, h⟩ := bind_eq_ok.mp h
      cases h
      exact .escaped hescape.1 hescape.2 hn htok
    case h_2 => cases h
  split at h
  case isTrue hdigit =>
    obtain ⟨⟨tok, n⟩, hnumber, h⟩ := bind_eq_ok.mp h
    cases h
    have hpos := scanNumber_pos (.inl hdigit) hnumber
    exact .number (by rwa [Nat.sub_add_cancel hpos])
  split at h
  case isTrue hdot =>
    split at h
    · rename_i hdigit
      obtain ⟨⟨tok, n⟩, hnumber, h⟩ := bind_eq_ok.mp h
      cases h
      have hpos := scanNumber_pos (.inr ⟨hdot, hdigit⟩) hnumber
      exact .number (by rwa [Nat.sub_add_cancel hpos])
    · cases h
      exact .dot hdot
  split at h
  case isTrue hdollar =>
    obtain ⟨⟨tok, n⟩, hparam, h⟩ := bind_eq_ok.mp h
    cases h
    exact .param hdollar hparam
  split at h
  case isTrue hword =>
    dsimp only at h
    split at h
    · cases h
    · cases h
      exact .word hword
  case isFalse => cases h

variable {cs : List Char} {s : Bytes}

theorem startsWith_iff :
    startsWith cs s = true ↔ ∃ p t, s = p ++ t ∧ List.Forall₂ (fun b c => is b c = true) p cs := by
  induction cs generalizing s with
  | nil =>
    refine ⟨fun _ => ⟨[], s, rfl, .nil⟩, fun _ => ?_⟩
    cases s <;> rfl
  | cons c cs ih =>
    cases s with
    | nil =>
      constructor
      · intro h
        cases h
      · rintro ⟨p, t, heq, hp⟩
        cases hp
        cases heq
    | cons b s =>
      rw [startsWith, Bool.and_eq_true, ih]
      constructor
      · rintro ⟨hb, p, t, rfl, hp⟩
        exact ⟨b :: p, t, rfl, .cons hb hp⟩
      · rintro ⟨p, t, heq, hp⟩
        cases hp with
        | cons hb hp =>
          cases heq
          exact ⟨hb, _, t, rfl, hp⟩

theorem startsWith_append {u t : Bytes} (h : startsWith cs u = true) :
    startsWith cs (u ++ t) = true := by
  rw [startsWith_iff] at h ⊢
  obtain ⟨p, s, rfl, hp⟩ := h
  exact ⟨p, s ++ t, by rw [List.append_assoc], hp⟩

theorem startsWith_of_append {u t : Bytes} (h : startsWith cs (u ++ t) = true)
    (hlen : cs.length ≤ u.length) : startsWith cs u = true := by
  induction cs generalizing u with
  | nil => cases u <;> rfl
  | cons c cs ih =>
    cases u with
    | nil => cases hlen
    | cons b u =>
      rw [List.cons_append, startsWith, Bool.and_eq_true] at h
      rw [startsWith, Bool.and_eq_true]
      exact ⟨h.1, ih h.2 (Nat.le_of_succ_le_succ hlen)⟩

theorem startsWith_length (h : startsWith cs s = true) :
    cs.length ≤ s.length := by
  obtain ⟨p, t, rfl, hp⟩ := startsWith_iff.mp h
  rw [← hp.length_eq, List.length_append]
  exact Nat.le_add_right _ _

theorem scanBlock_le {depth : ℕ} (h : scanBlock depth s = some n) : n ≤ s.length := by
  fun_induction scanBlock depth s generalizing n with
  | case1 =>
    cases h
    exact Nat.zero_le _
  | case2 => cases h
  | case3 => cases h
  | case4 depth b b' rest _ ih | case5 depth b b' rest _ _ ih =>
    obtain ⟨m, hm, rfl⟩ := Option.map_eq_some_iff.mp h
    have := ih hm
    simp only [List.length_cons]
    omega
  | case6 depth b b' rest _ _ ih =>
    obtain ⟨m, hm, rfl⟩ := Option.map_eq_some_iff.mp h
    have := ih hm
    simp only [List.length_cons] at this ⊢
    omega

theorem scanQuotedBody_le {quote : UInt8} {buf : Bytes}
    (h : scanQuotedBody quote s = some (buf, n)) : n ≤ s.length := by
  fun_induction scanQuotedBody quote s generalizing buf n with
  | case1 => cases h
  | case2 =>
    cases h
    exact le_rfl
  | case3 => cases h
  | case4 b b' rest _ _ ih =>
    obtain ⟨⟨buf, m⟩, hm, heq⟩ := Option.map_eq_some_iff.mp h
    cases heq
    have := ih hm
    simp only [List.length_cons]
    omega
  | case5 =>
    cases h
    simp
  | case6 b b' rest _ ih =>
    obtain ⟨⟨buf, m⟩, hm, heq⟩ := Option.map_eq_some_iff.mp h
    cases heq
    have := ih hm
    simp only [List.length_cons] at this ⊢
    omega

/-- The choice among the operators of one byte. -/
theorem greedy_ok {longer : List (List Char × Token)} {alone : Option Token}
    {tok : Token} (h : greedy b longer alone rest = .ok (tok, n)) :
    (∃ op ∈ longer, startsWith op.1 rest = true ∧ tok = op.2 ∧ n = op.1.length) ∨
      alone = some tok ∧ n = 0 := by
  unfold greedy at h
  split at h
  case h_1 op hop =>
    cases h
    have hstart := List.find?_some hop
    exact .inl ⟨op, List.mem_of_find?_eq_some hop, hstart, rfl, rfl⟩
  case h_2 =>
    split at h
    · cases h
      exact .inr ⟨rfl, rfl⟩
    · cases h

theorem scanParam_ok {tok : Token} (h : scanParam rest = .ok (tok, n)) :
    n = (rest.takeWhile isDigit).length ∧ n ≠ 0 := by
  unfold scanParam at h
  dsimp only at h
  split at h
  · cases h
  · rename_i hne
    split at h
    · cases h
    · split at h
      · cases h
        refine ⟨rfl, fun hzero => hne ?_⟩
        rw [List.length_eq_zero_iff.mp hzero]
        rfl
      · cases h

theorem length_takeWhile_le (p : UInt8 → Bool) (s : Bytes) : (s.takeWhile p).length ≤ s.length :=
  (List.takeWhile_prefix p).length_le

theorem Taken.le (h : Taken b rest o n) :
    n ≤ rest.length := by
  cases h with
  | blank => exact Nat.zero_le _
  | line _ hrest =>
    have hlen := startsWith_length hrest
    have htake := length_takeWhile_le (fun b => !isEol b) rest.tail
    rw [List.length_tail] at htake
    simp only [List.length_singleton] at hlen
    omega
  | block _ hrest hn =>
    have hlen := startsWith_length hrest
    have hle := scanBlock_le hn
    rw [List.length_tail] at hle
    simp only [List.length_singleton] at hlen
    omega
  | operator _ _ _ _ hgreedy =>
    rcases greedy_ok hgreedy with ⟨op, -, hstart, -, rfl⟩ | ⟨-, rfl⟩
    · exact startsWith_length hstart
    · exact Nat.zero_le _
  | quoted _ hbody => exact scanQuotedBody_le hbody
  | escaped _ hstart hbody =>
    have hle := scanQuotedBody_le hbody
    have hlen : 2 ≤ rest.length := by
      rw [beginsEscaped, Bool.or_eq_true] at hstart
      exact hstart.elim startsWith_length startsWith_length
    rw [List.length_drop] at hle
    omega
  | number hnumber =>
    have hle := (scanNumber_extends hnumber).length
    rw [List.length_cons] at hle
    omega
  | dot => exact Nat.zero_le _
  | param _ hparam =>
    rw [(scanParam_ok hparam).1]
    exact length_takeWhile_le _ _
  | word => exact length_takeWhile_le _ _

section Cut

variable {u t : Bytes}

variable {n depth : ℕ} {s : Bytes}

theorem scanBlock_pos (h : scanBlock (depth + 1) s = some n) : 2 ≤ n := by
  induction s generalizing depth n with
  | nil => cases h
  | cons b s ih =>
    cases s with
    | nil => cases h
    | cons b' s =>
      unfold scanBlock at h
      split at h
      · obtain ⟨m, -, rfl⟩ := Option.map_eq_some_iff.mp h
        exact Nat.le_add_right _ _
      · split at h
        · obtain ⟨m, -, rfl⟩ := Option.map_eq_some_iff.mp h
          exact Nat.le_add_right _ _
        · obtain ⟨m, hm, rfl⟩ := Option.map_eq_some_iff.mp h
          have := ih hm
          omega

theorem scanBlock_cut (h : scanBlock depth (u ++ t) = some n) (hn : n ≤ u.length) :
    scanBlock depth u = some n := by
  fun_induction scanBlock depth u generalizing n with
  | case1 =>
    rw [scanBlock] at h
    exact h
  | case2 depth =>
    have := scanBlock_pos h
    rw [List.length_nil] at hn
    omega
  | case3 depth b =>
    have := scanBlock_pos h
    rw [List.length_singleton] at hn
    omega
  | case4 depth b b' rest hb ih =>
    rw [List.cons_append, List.cons_append, scanBlock, if_pos hb] at h
    obtain ⟨m, hm, rfl⟩ := Option.map_eq_some_iff.mp h
    simp only [List.length_cons] at hn
    rw [ih hm (by omega), Option.map_some]
  | case5 depth b b' rest hb hb' ih =>
    rw [List.cons_append, List.cons_append, scanBlock, if_neg hb, if_pos hb'] at h
    obtain ⟨m, hm, rfl⟩ := Option.map_eq_some_iff.mp h
    simp only [List.length_cons] at hn
    rw [ih hm (by omega), Option.map_some]
  | case6 depth b b' rest hb hb' ih =>
    rw [List.cons_append, List.cons_append, scanBlock, if_neg hb, if_neg hb'] at h
    obtain ⟨m, hm, rfl⟩ := Option.map_eq_some_iff.mp h
    simp only [List.length_cons] at hn ih
    rw [ih hm (by omega), Option.map_some]

theorem scanQuotedBody_pos {quote : UInt8} {buf : Bytes} (h : scanQuotedBody quote s = some (buf, n)) : 1 ≤ n := by
  fun_induction scanQuotedBody quote s generalizing buf n with
  | case1 | case3 => cases h
  | case2 | case5 =>
    cases h
    exact le_rfl
  | case4 b b' rest _ _ ih | case6 b b' rest _ ih =>
    obtain ⟨⟨buf, m⟩, -, heq⟩ := Option.map_eq_some_iff.mp h
    cases heq
    omega

theorem scanQuotedBody_cut {quote : UInt8} {buf : Bytes}
    (h : scanQuotedBody quote (u ++ t) = some (buf, n)) (hn : n ≤ u.length) :
    scanQuotedBody quote u = some (buf, n) := by
  fun_induction scanQuotedBody quote u generalizing buf n with
  | case1 =>
    have := scanQuotedBody_pos h
    rw [List.length_nil] at hn
    omega
  | case2 b hb =>
    cases t with
    | nil =>
      rw [List.append_nil, scanQuotedBody, if_pos hb] at h
      exact h
    | cons b' t =>
      rw [List.singleton_append, scanQuotedBody, if_pos hb] at h
      split at h
      · obtain ⟨⟨buf, m⟩, -, heq⟩ := Option.map_eq_some_iff.mp h
        cases heq
        rw [List.length_singleton] at hn
        omega
      · exact h
  | case3 b hb =>
    cases t with
    | nil =>
      rw [List.append_nil, scanQuotedBody, if_neg hb] at h
      cases h
    | cons b' t =>
      rw [List.singleton_append, scanQuotedBody, if_neg hb] at h
      obtain ⟨⟨buf, m⟩, hm, heq⟩ := Option.map_eq_some_iff.mp h
      have hpos := scanQuotedBody_pos hm
      cases heq
      rw [List.length_singleton] at hn
      omega
  | case4 b b' rest hb hb' ih =>
    rw [List.cons_append, List.cons_append, scanQuotedBody, if_pos hb, if_pos hb'] at h
    obtain ⟨⟨buf, m⟩, hm, heq⟩ := Option.map_eq_some_iff.mp h
    cases heq
    simp only [List.length_cons] at hn
    rw [ih hm (by omega), Option.map_some]
  | case5 b b' rest hb hb' =>
    rw [List.cons_append, List.cons_append, scanQuotedBody, if_pos hb, if_neg hb'] at h
    exact h
  | case6 b b' rest hb ih =>
    rw [List.cons_append, List.cons_append, scanQuotedBody, if_neg hb] at h
    obtain ⟨⟨buf, m⟩, hm, heq⟩ := Option.map_eq_some_iff.mp h
    cases heq
    simp only [List.length_cons] at hn ih
    rw [ih hm (by omega), Option.map_some]

variable {b : UInt8}

theorem greedy_cut {longer : List (List Char × Token)} {alone : Option Token}
    {r : Token × ℕ} (h : greedy b longer alone (u ++ t) = .ok r) (hn : r.2 ≤ u.length) :
    greedy b longer alone u = .ok r := by
  unfold greedy at h ⊢
  induction longer with
  | nil => exact h
  | cons op longer ih =>
    rw [List.find?_cons] at h ⊢
    cases hop : startsWith op.1 u with
    | true =>
      rw [startsWith_append hop] at h
      exact h
    | false =>
      cases hop' : startsWith op.1 (u ++ t) with
      | true =>
        rw [hop'] at h
        cases h
        rw [startsWith_of_append hop' hn] at hop
        cases hop
      | false =>
        rw [hop'] at h
        exact ih h

theorem takeWhile_cut {p : UInt8 → Bool} (hn : ((u ++ t).takeWhile p).length ≤ u.length) :
    (u ++ t).takeWhile p = u.takeWhile p := by
  induction u with
  | nil =>
    cases t with
    | nil => rfl
    | cons b t =>
      rw [List.nil_append, List.length_nil, Nat.le_zero, List.length_eq_zero_iff] at hn
      rw [List.nil_append, hn]
      rfl
  | cons b u ih =>
    rw [List.cons_append, List.takeWhile_cons] at hn ⊢
    rw [List.takeWhile_cons]
    split
    · rename_i hb
      rw [if_pos hb, List.length_cons, List.length_cons] at hn
      rw [ih (Nat.le_of_succ_le_succ hn)]
    · rfl

theorem and_startsWith_cut {c : Bool} {cs : List Char} (h : ¬ (c && startsWith cs (u ++ t)) = true) :
    ¬ (c && startsWith cs u) = true := by
  intro hu
  rw [Bool.and_eq_true] at h hu
  exact h ⟨hu.1, startsWith_append hu.2⟩

theorem beginsEscaped_append (h : beginsEscaped u = true) : beginsEscaped (u ++ t) = true := by
  rw [beginsEscaped, Bool.or_eq_true] at h ⊢
  exact h.imp startsWith_append startsWith_append

theorem beginsEscaped_of_append (h : beginsEscaped (u ++ t) = true) (hlen : 2 ≤ u.length) :
    beginsEscaped u = true := by
  rw [beginsEscaped, Bool.or_eq_true] at h ⊢
  exact h.imp (startsWith_of_append · hlen) (startsWith_of_append · hlen)

theorem scanNumber_cons_cut (ht : Stops t) {tok : Token}
    (h : scanNumber (b :: (u ++ t)) = .ok (tok, n)) (hn : n - 1 ≤ u.length) :
    scanNumber (b :: u) = .ok (tok, n) :=
  scanNumber_cut (u := b :: u) ht (List.cons_ne_nil _ _) h (by rw [List.length_cons]; omega)

/-- A turn of the lexer takes the same bytes when what a byte that stops begins is cut off after
them. -/
theorem step_cut (ht : Stops t) {o : Option (Token × Bool)}
    (h : step b (u ++ t) = .ok (o, n)) (hn : n ≤ u.length) : step b u = .ok (o, n) := by
  unfold step at h ⊢
  split at h
  case isTrue hb => rw [if_pos hb, h]
  case isFalse hb =>
  rw [if_neg hb]
  split at h
  case isTrue hline =>
    cases h
    rw [Bool.and_eq_true] at hline
    cases u with
    | nil =>
      rw [List.length_nil] at hn
      omega
    | cons c u =>
      rw [List.cons_append, List.tail_cons, List.length_cons] at hn
      have hsame := takeWhile_cut (u := u) (t := t) (p := fun b => !isEol b) (by omega)
      rw [if_pos (by rw [Bool.and_eq_true]; exact ⟨hline.1, startsWith_of_append hline.2 (by simp)⟩),
        List.cons_append, List.tail_cons, List.tail_cons, hsame]
  case isFalse hline =>
  rw [if_neg (and_startsWith_cut hline)]
  split at h
  case isTrue hblock =>
    rw [Bool.and_eq_true] at hblock
    split at h
    case h_1 m hm =>
      cases h
      cases u with
      | nil =>
        rw [List.length_nil] at hn
        omega
      | cons c u =>
        rw [List.cons_append, List.tail_cons] at hm
        rw [List.length_cons] at hn
        rw [if_pos (by rw [Bool.and_eq_true]; exact ⟨hblock.1, startsWith_of_append hblock.2 (by simp)⟩),
          List.tail_cons, scanBlock_cut hm (by omega)]
    case h_2 => cases h
  case isFalse hblock =>
  rw [if_neg (and_startsWith_cut hblock)]
  split at h
  case h_1 op hop =>
    obtain ⟨⟨tok, m⟩, hgreedy, h⟩ := bind_eq_ok.mp h
    cases h
    rw [bind_eq_ok]
    exact ⟨_, greedy_cut hgreedy hn, rfl⟩
  case h_2 =>
  split at h
  case isTrue hquote =>
    rw [if_pos hquote]
    split at h
    case h_1 buf m hm =>
      obtain ⟨tok, htok, h⟩ := bind_eq_ok.mp h
      cases h
      rw [scanQuotedBody_cut hm hn]
      exact bind_eq_ok.mpr ⟨_, htok, rfl⟩
    case h_2 => cases h
  case isFalse hquote =>
  rw [if_neg hquote]
  split at h
  case isTrue hescape =>
    dsimp only at h ⊢
    split at h
    case h_1 buf m hm =>
      obtain ⟨tok, htok, h⟩ := bind_eq_ok.mp h
      cases h
      have htwo : 2 ≤ u.length := by omega
      rw [Bool.and_eq_true] at hescape
      have hu : ((is b 'u' || is b 'U') && beginsEscaped u) = true := by
        rw [Bool.and_eq_true]
        exact ⟨hescape.1, beginsEscaped_of_append hescape.2 htwo⟩
      rw [List.getD_append _ _ _ _ htwo, List.drop_append_of_le_length htwo] at hm
      rw [List.getD_append _ _ _ _ htwo] at htok
      rw [if_pos hu, scanQuotedBody_cut hm (by rw [List.length_drop]; omega)]
      exact bind_eq_ok.mpr ⟨_, htok, rfl⟩
    case h_2 => cases h
  case isFalse hescape =>
  have hu : ¬ ((is b 'u' || is b 'U') && beginsEscaped u) = true := by
    intro hu
    rw [Bool.and_eq_true] at hu hescape
    exact hescape ⟨hu.1, beginsEscaped_append hu.2⟩
  rw [if_neg hu]
  split at h
  case isTrue hdigit =>
    obtain ⟨⟨tok, m⟩, hnumber, h⟩ := bind_eq_ok.mp h
    cases h
    rw [if_pos hdigit, scanNumber_cons_cut ht hnumber hn]
    rfl
  case isFalse hdigit =>
  rw [if_neg hdigit]
  split at h
  case isTrue hdot =>
    rw [if_pos hdot]
    rw [ht.digit (Nat.zero_le _)] at h
    split at h
    case isTrue hnext =>
      obtain ⟨⟨tok, m⟩, hnumber, h⟩ := bind_eq_ok.mp h
      cases h
      rw [if_pos hnext, scanNumber_cons_cut ht hnumber hn]
      rfl
    case isFalse hnext => rw [if_neg hnext, h]
  case isFalse hdot =>
  rw [if_neg hdot]
  split at h
  case isTrue hdollar =>
    obtain ⟨⟨tok, m⟩, hparam, h⟩ := bind_eq_ok.mp h
    cases h
    rw [if_pos hdollar, bind_eq_ok]
    rw [(scanParam_ok hparam).1] at hn
    unfold scanParam at hparam ⊢
    rw [takeWhile_cut hn] at hparam
    exact ⟨_, hparam, rfl⟩
  case isFalse hdollar =>
  rw [if_neg hdollar]
  split at h
  case isTrue hword =>
    rw [if_pos hword]
    dsimp only at h ⊢
    split at h
    · cases h
    · rename_i hlong
      cases h
      rw [List.length_cons, Nat.add_sub_cancel] at hn
      rw [takeWhile_cut hn] at hlong ⊢
      rw [if_neg hlong]
  case isFalse => cases h

end Cut

end Jed.Sql
