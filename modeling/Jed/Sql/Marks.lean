import Mathlib.Data.List.TakeWhile
import Jed.Sql.Pieces

/-!
# What the splitter makes of a piece
-/

namespace Jed.Sql

open Results

/-- Nothing, or a line that ends. -/
def Ends (t : Bytes) : Prop := ∀ b ∈ t.head?, is b '\n' = true

/-- A byte that is a part of a statement wherever it stands. -/
def isPlain (b : UInt8) : Bool :=
  !(isBlank b || is b ';' || is b '\'' || is b '"' || is b '$' || is b '-' || is b '/')

/-- Bytes that the splitter takes one by one as a part of a statement. -/
def PlainRun : Bytes → Bytes → Prop
  | [], _ => True
  | b :: p, t => chunk b (p ++ t) = (.significant, 0) ∧ PlainRun p t

variable {b : UInt8} {rest : Bytes}

theorem chunk_plain (h : isPlain b = true) :
    chunk b rest = (.significant, 0) := by
  simp only [isPlain, Bool.not_eq_true', Bool.or_eq_false_iff] at h
  simp [chunk, h]

theorem chunk_minus (h : is b '-' = true)
    (hrest : startsWith ['-'] rest = false) : chunk b rest = (.significant, 0) := by
  have hb := is_iff.mp h
  simp [chunk, hrest, isBlank, is, hb]

theorem chunk_slash (h : is b '/' = true)
    (hrest : startsWith ['*'] rest = false) : chunk b rest = (.significant, 0) := by
  have hb := is_iff.mp h
  simp [chunk, hrest, isBlank, is, hb]

theorem nextSpan_skip (p t : Bytes) (i : ℕ) (start : Option ℕ) (lastEnd : ℕ) :
    nextSpan (p ++ t) p.length i start lastEnd = nextSpan t 0 (i + p.length) start lastEnd := by
  induction p generalizing i with
  | nil => rfl
  | cons b p ih =>
    rw [List.cons_append, List.length_cons, nextSpan, ih, Nat.add_assoc, Nat.add_comm 1]

variable {p t : Bytes}

/-- Plain bytes are taken as a part of a statement. -/
theorem nextSpan_plain (h : PlainRun p t) (hne : p ≠ []) (i : ℕ) (start : Option ℕ)
    (lastEnd : ℕ) : nextSpan (p ++ t) 0 i start lastEnd =
      nextSpan t 0 (i + p.length) (some (start.getD i)) (i + p.length) := by
  induction p generalizing i start lastEnd with
  | nil => exact absurd rfl hne
  | cons b p ih =>
    rw [List.cons_append, nextSpan, h.1]
    cases p with
    | nil => rfl
    | cons b' p =>
      have hrest := ih h.2 (List.cons_ne_nil b' p) (i + 1) (some (start.getD i)) (i + 1)
      rw [Option.getD_some, Nat.add_assoc, Nat.add_comm 1] at hrest
      exact hrest

theorem plainRun_of_number (h : NumberRun p) : PlainRun p t := by
  induction p with
  | nil => trivial
  | cons b p ih =>
    refine ⟨?_, ih h.2⟩
    rcases h.1 with hword | hdot | hplus | ⟨hminus, d, hd, hdigit⟩
    · refine chunk_plain ?_
      simp only [isWordByte, isAlpha, isDigit, is, Bool.or_eq_true, Bool.and_eq_true, decide_eq_true_eq,
        beq_iff_eq] at hword
      simp only [isPlain, isBlank, is, Bool.not_eq_true', Bool.or_eq_false_iff, beq_eq_false_iff_ne]
      have hcodes : 'A'.toNat = 65 ∧ 'Z'.toNat = 90 ∧ 'a'.toNat = 97 ∧ 'z'.toNat = 122 ∧
        '0'.toNat = 48 ∧ '9'.toNat = 57 ∧ '_'.toNat = 95 ∧ ' '.toNat = 32 ∧ '\t'.toNat = 9 ∧
        '\r'.toNat = 13 ∧ '\n'.toNat = 10 ∧ ';'.toNat = 59 ∧ '\''.toNat = 39 ∧ '"'.toNat = 34 ∧
        '$'.toNat = 36 ∧ '-'.toNat = 45 ∧ '/'.toNat = 47 := by decide
      omega
    · refine chunk_plain ?_
      rw [is_iff] at hdot
      simp [isPlain, isBlank, is, hdot]
    · refine chunk_plain ?_
      rw [is_iff] at hplus
      simp [isPlain, isBlank, is, hplus]
    · refine chunk_minus hminus ?_
      cases p with
      | nil => cases hd
      | cons c p =>
        cases hd
        cases hc : is d '-' with
        | false => simp [startsWith, hc]
        | true =>
          have hcode := is_iff.mp hc
          rw [isDigit, hcode] at hdigit
          cases hdigit

/-- Characters among which the splitter finds nothing but parts of a statement: no blank, no mark of
its own, no comment. -/
def plainChars : List Char → Bool
  | [] => true
  | c :: cs =>
    !(c == ' ' || c == '\t' || c == '\r' || c == '\n' || c == ';' || c == '\'' || c == '"' ||
        c == '$') &&
      !(c == '-' && cs.head? == some '-') && !(c == '/' && cs.head? == some '*') && plainChars cs

/-- No operator has a comment in it, and of the longer ones only two end in a hyphen, none in a
slash. -/
theorem operators_plain : ∀ op ∈ operators, plainChars [op.1] = true ∧
    ∀ l ∈ op.2.1, plainChars (op.1 :: l.1) = true ∧ (op.1 :: l.1).getLast? ≠ some '/' ∧
      ((op.1 :: l.1).getLast? = some '-' → l.2 = .adjacent ∨ l.2 = .hashMinus) := by
  decide

variable {c : Char}

theorem is_other {d : Char} (hb : is b c = true) (h : c ≠ d) : is b d = false := by
  rw [is_iff] at hb
  rw [is, hb, beq_eq_false_iff_ne]
  exact fun heq => h (Char.toNat_inj.mp heq)

theorem chunk_char (hb : is b c = true)
    (hc : plainChars [c] = true) (hminus : c = '-' → startsWith ['-'] rest = false)
    (hslash : c = '/' → startsWith ['*'] rest = false) : chunk b rest = (.significant, 0) := by
  by_cases hm : c = '-'
  · subst hm
    exact chunk_minus hb (hminus rfl)
  · by_cases hs : c = '/'
    · subst hs
      exact chunk_slash hb (hslash rfl)
    · refine chunk_plain ?_
      simp only [plainChars, Bool.and_true, Bool.and_eq_true, Bool.not_eq_true', Bool.or_eq_false_iff,
        beq_eq_false_iff_ne] at hc
      simp only [isPlain, isBlank, Bool.not_eq_true', Bool.or_eq_false_iff]
      refine ⟨⟨⟨⟨⟨⟨⟨⟨⟨?_, ?_⟩, ?_⟩, ?_⟩, ?_⟩, ?_⟩, ?_⟩, ?_⟩, ?_⟩, ?_⟩ <;> apply is_other hb <;> tauto

/-- The characters of an operator are plain unless its last one begins a comment. -/
theorem plainRun_chars {cs : List Char} (h : List.Forall₂ (fun b c => is b c = true) p cs)
    (hcs : plainChars cs = true) (hminus : cs.getLast? = some '-' → startsWith ['-'] t = false)
    (hslash : cs.getLast? = some '/' → startsWith ['*'] t = false) : PlainRun p t := by
  induction h with
  | nil => trivial
  | @cons b c p cs hb hp ih =>
    rw [plainChars, Bool.and_eq_true, Bool.and_eq_true, Bool.and_eq_true] at hcs
    have hone : plainChars [c] = true := by simpa [plainChars] using hcs.1.1.1
    cases hp with
    | nil =>
      refine ⟨chunk_char hb hone (fun hc => hminus ?_) (fun hc => hslash ?_), trivial⟩
      · rw [hc]
        rfl
      · rw [hc]
        rfl
    | @cons b' c' p cs hb' hp =>
      rw [List.getLast?_cons_cons] at hminus hslash
      refine ⟨chunk_char hb hone (fun hc => ?_) (fun hc => ?_), ih hcs.2 hminus hslash⟩
      · have hne : c' ≠ '-' := by simpa [hc] using hcs.1.1.2
        simp [startsWith, is_other hb' hne]
      · have hne : c' ≠ '*' := by simpa [hc] using hcs.1.2
        simp [startsWith, is_other hb' hne]

variable {n : ℕ} {s : Bytes}

theorem skipBlock_of_scan {depth : ℕ} (h : scanBlock depth s = some n) (t : Bytes) :
    skipBlock depth (s ++ t) = n := by
  fun_induction scanBlock depth s generalizing n with
  | case1 =>
    cases h
    rw [skipBlock]
  | case2 => cases h
  | case3 => cases h
  | case4 depth b b' rest hb ih =>
    obtain ⟨m, hm, rfl⟩ := Option.map_eq_some_iff.mp h
    rw [List.cons_append, List.cons_append, skipBlock, if_pos hb, ih hm]
  | case5 depth b b' rest hb hb' ih =>
    obtain ⟨m, hm, rfl⟩ := Option.map_eq_some_iff.mp h
    rw [List.cons_append, List.cons_append, skipBlock, if_neg hb, if_pos hb', ih hm]
  | case6 depth b b' rest hb hb' ih =>
    obtain ⟨m, hm, rfl⟩ := Option.map_eq_some_iff.mp h
    rw [List.cons_append, List.cons_append, skipBlock, if_neg hb, if_neg hb']
    rw [← List.cons_append, ih hm]

variable {buf : Bytes}

theorem skipQuoted_of_scan {quote : UInt8}
    (h : scanQuotedBody quote s = some (buf, n)) (ht : ∀ b ∈ t.head?, b ≠ quote) :
    skipQuoted quote (s ++ t) = n := by
  fun_induction scanQuotedBody quote s generalizing buf n with
  | case1 | case3 => cases h
  | case2 b hb =>
    cases h
    cases t with
    | nil => rfl
    | cons b' t =>
      rw [List.singleton_append, skipQuoted, if_pos hb, if_neg (by simpa using ht b' rfl)]
  | case4 b b' rest hb hb' ih =>
    obtain ⟨⟨buf, m⟩, hm, heq⟩ := Option.map_eq_some_iff.mp h
    cases heq
    rw [List.cons_append, List.cons_append, skipQuoted, if_pos hb, if_pos hb', ih hm]
  | case5 b b' rest hb hb' =>
    cases h
    rw [List.cons_append, List.cons_append, skipQuoted, if_pos hb, if_neg hb']
  | case6 b b' rest hb ih =>
    obtain ⟨⟨buf, m⟩, hm, heq⟩ := Option.map_eq_some_iff.mp h
    cases heq
    rw [List.cons_append, List.cons_append, skipQuoted, if_neg hb]
    rw [← List.cons_append, ih hm]

theorem takeWhile_eol (s : Bytes) (ht : Ends t) :
    (s ++ t).takeWhile (fun b => !isEol b) = s.takeWhile fun b => !isEol b := by
  induction s with
  | nil =>
    cases t with
    | nil => rfl
    | cons b t => simp [isEol, ht b rfl]
  | cons b s ih => simp only [List.cons_append, List.takeWhile_cons, ih]

theorem startsWith_ends (hc : c ≠ '\n') (s : Bytes) (ht : Ends t) :
    startsWith [c] (s ++ t) = startsWith [c] s := by
  cases s with
  | nil =>
    cases t with
    | nil => rfl
    | cons b t => simp [startsWith, is_other (ht b rfl) hc.symm]
  | cons b s => simp [startsWith]

theorem chunk_blank (h : Taken b rest none n) (ht : Ends t) :
    chunk b (rest ++ t) = (.blank, n) := by
  cases h with
  | blank hb => rw [chunk, if_pos hb]
  | line hb hrest =>
    have hcode := is_iff.mp hb
    have hstart := startsWith_append (t := t) hrest
    have htail : (rest ++ t).tail = rest.tail ++ t := by
      cases rest with
      | nil => cases hrest
      | cons c rest => rfl
    simp [chunk, isBlank, is, hcode, hstart, htail, takeWhile_eol _ ht]
  | block hb hrest hn =>
    have hcode := is_iff.mp hb
    have hstart := startsWith_append (t := t) hrest
    have htail : (rest ++ t).tail = rest.tail ++ t := by
      cases rest with
      | nil => cases hrest
      | cons c rest => rfl
    simp [chunk, isBlank, is, hcode, hstart, htail, skipBlock_of_scan hn]

theorem chunk_quoted {q : UInt8} (hq : (is q '\'' || is q '"') = true)
    (h : scanQuotedBody q rest = some (buf, n)) (ht : Ends t) :
    chunk q (rest ++ t) = (.significant, n) := by
  have hne : ∀ b ∈ t.head?, b ≠ q := by
    rintro b hb rfl
    have hcode := is_iff.mp (ht b hb)
    simp [is, hcode] at hq
  have hskip := skipQuoted_of_scan h hne
  rw [Bool.or_eq_true] at hq
  rcases hq with hq | hq <;> have hcode := is_iff.mp hq <;> simp [chunk, isBlank, is, hcode, hskip]

theorem nextSpan_blank (h : Taken b (p ++ s) none p.length) (ht : Ends t)
    (i : ℕ) (start : Option ℕ) (lastEnd : ℕ) : nextSpan (b :: (p ++ s ++ t)) 0 i start lastEnd =
      nextSpan (s ++ t) 0 (i + 1 + p.length) start lastEnd := by
  rw [nextSpan, chunk_blank h ht, List.append_assoc]
  exact nextSpan_skip p (s ++ t) (i + 1) start lastEnd

theorem append_eq_of_length {q : UInt8 → Bool}
    (h : p.length = ((p ++ s).takeWhile q).length) : ∀ b ∈ p, q b = true := by
  have heq : p = (p ++ s).takeWhile q := by
    have hprefix := List.prefix_of_prefix_length_le (List.prefix_append p s)
      (List.takeWhile_prefix q) h.le
    exact hprefix.eq_of_length h
  intro b hb
  rw [heq] at hb
  exact List.mem_takeWhile_imp hb

/-- The bytes of an operator are plain, unless a hyphen stands after one that ends in a hyphen. -/
theorem plainRun_operator
    {op : Char × List (List Char × Token) × Option Token} {tok : Token} (hop : op ∈ operators)
    (hb : is b op.1 = true)
    (hline : (is b '-' && startsWith ['-'] (p ++ s)) = false)
    (hblock : (is b '/' && startsWith ['*'] (p ++ s)) = false)
    (hgreedy : greedy b op.2.1 op.2.2 (p ++ s) = .ok (tok, p.length))
    (hglue : tok = .adjacent ∨ tok = .hashMinus → startsWith ['-'] s = false) (ht : Ends t) :
    PlainRun (b :: p) (s ++ t) := by
  obtain ⟨hone, hlonger⟩ := operators_plain op hop
  rcases greedy_ok hgreedy with ⟨l, hl, hstart, rfl, hlen⟩ | ⟨-, hlen⟩
  · obtain ⟨hchars, hslash, hminus⟩ := hlonger l hl
    obtain ⟨p', s', heq, hp⟩ := startsWith_iff.mp hstart
    obtain ⟨rfl, rfl⟩ := List.append_inj heq (hlen.trans hp.length_eq.symm)
    refine plainRun_chars (.cons hb hp) hchars (fun hlast => ?_) (fun hlast => absurd hlast hslash)
    rw [startsWith_ends (by decide) _ ht]
    exact hglue (hminus hlast)
  · obtain rfl := List.length_eq_zero_iff.mp hlen
    refine plainRun_chars (.cons hb .nil) hone (fun hlast => ?_) (fun hlast => ?_)
    · have hc : op.1 = '-' := by simpa using hlast
      rw [hc] at hb
      rw [startsWith_ends (by decide) _ ht]
      rwa [hb, Bool.true_and] at hline
    · have hc : op.1 = '/' := by simpa using hlast
      rw [hc] at hb
      rw [startsWith_ends (by decide) _ ht]
      rwa [hb, Bool.true_and] at hblock

theorem nextSpan_quoted {q : UInt8} (hq : (is q '\'' || is q '"') = true)
    (h : scanQuotedBody q (p ++ s) = some (buf, p.length)) (ht : Ends t) (i : ℕ) (start : Option ℕ)
    (lastEnd : ℕ) : nextSpan (q :: (p ++ s ++ t)) 0 i start lastEnd =
      nextSpan (s ++ t) 0 (i + 1 + p.length) (some (start.getD i)) (i + 1 + p.length) := by
  rw [nextSpan, chunk_quoted hq h ht, List.append_assoc]
  exact nextSpan_skip p (s ++ t) (i + 1) (some (start.getD i)) (i + 1 + p.length)

theorem isWordByte_of_digit (h : isDigit b = true) : isWordByte b = true := by
  simp [isWordByte, h]

/-- A bind parameter does not open a dollar quote. -/
theorem chunk_param {d : UInt8} (hb : is b '$' = true) (hd : isDigit d = true) :
    chunk b (d :: rest) = (.significant, 0) := by
  have hcode := is_iff.mp hb
  have htag : dollarTagLen (d :: rest) = none := by
    simp only [isDigit, Bool.and_eq_true, decide_eq_true_eq] at hd
    have hcodes : '0'.toNat = 48 ∧ '9'.toNat = 57 ∧ '$'.toNat = 36 ∧ 'A'.toNat = 65 ∧
      'Z'.toNat = 90 ∧ 'a'.toNat = 97 ∧ 'z'.toNat = 122 ∧ '_'.toNat = 95 := by decide
    rw [dollarTagLen, if_neg, if_neg]
    · simp only [isAlpha, is, Bool.or_eq_true, Bool.and_eq_true, decide_eq_true_eq, beq_iff_eq]
      omega
    · simp only [is, beq_iff_eq]
      omega
  simp [chunk, isBlank, is, hcode, htag]

/-- A `U` before a quoted body: two bytes of a statement, and the quote. -/
theorem nextSpan_escaped (hb : (is b 'u' || is b 'U') = true) (hstart : beginsEscaped (p ++ s) = true)
    (hbody : scanQuotedBody ((p ++ s).getD 1 0) ((p ++ s).drop 2) = some (buf, n))
    (hn : p.length = 2 + n) (ht : Ends t) (i : ℕ) (start : Option ℕ) (lastEnd : ℕ) :
    nextSpan (b :: (p ++ s ++ t)) 0 i start lastEnd =
      nextSpan (s ++ t) 0 (i + 1 + p.length) (some (start.getD i)) (i + 1 + p.length) := by
  cases p with
  | nil =>
    rw [List.length_nil] at hn
    omega
  | cons amp p =>
  cases p with
  | nil =>
    rw [List.length_singleton] at hn
    omega
  | cons q p =>
  rw [List.length_cons, List.length_cons] at hn ⊢
  have hlen : p.length = n := by omega
  have hamp : is amp '&' = true ∧ (is q '\'' || is q '"') = true := by
    simp only [beginsEscaped, List.cons_append, startsWith, Bool.and_true, Bool.or_eq_true,
      Bool.and_eq_true] at hstart ⊢
    tauto
  have hword : isPlain b = true := by
    rw [Bool.or_eq_true] at hb
    rcases hb with hb | hb <;> have hcode := is_iff.mp hb <;> simp [isPlain, isBlank, is, hcode]
  have hplain : isPlain amp = true := by
    have hcode := is_iff.mp hamp.1
    simp [isPlain, isBlank, is, hcode]
  have hquoted := nextSpan_quoted hamp.2 (hlen ▸ hbody) ht (i + 1 + 1) (some (start.getD i)) (i + 1 + 1)
  simp only [List.cons_append, Option.getD_some] at hquoted ⊢
  rw [nextSpan, chunk_plain hword]
  dsimp only
  rw [nextSpan, chunk_plain hplain, Option.getD_some]
  refine hquoted.trans ?_
  rw [show i + 1 + 1 + 1 + p.length = i + 1 + (p.length + 1 + 1) by omega]

/-- A token is a part of a statement to the splitter, unless a hyphen stands after an operator that
ends in one. -/
theorem nextSpan_token {tok : Token} {esc : Bool} (h : Taken b (p ++ s) (some (tok, esc)) p.length)
    (hglue : tok = .adjacent ∨ tok = .hashMinus → startsWith ['-'] s = false) (ht : Ends t) (i : ℕ)
    (start : Option ℕ) (lastEnd : ℕ) : nextSpan (b :: (p ++ s ++ t)) 0 i start lastEnd =
      nextSpan (s ++ t) 0 (i + 1 + p.length) (some (start.getD i)) (i + 1 + p.length) := by
  have hplain (hrun : PlainRun (b :: p) (s ++ t)) :
      nextSpan (b :: (p ++ s ++ t)) 0 i start lastEnd =
        nextSpan (s ++ t) 0 (i + 1 + p.length) (some (start.getD i)) (i + 1 + p.length) := by
    have := nextSpan_plain hrun (List.cons_ne_nil _ _) i start lastEnd
    rw [List.length_cons, ← Nat.add_assoc, Nat.add_right_comm] at this
    rwa [List.append_assoc]
  generalize hn : p.length = n at h
  cases h with
  | operator hop hb hline hblock hgreedy =>
    subst hn
    exact hplain (plainRun_operator hop hb hline hblock hgreedy hglue ht)
  | quoted hq hbody =>
    subst hn
    exact nextSpan_quoted hq hbody ht i start lastEnd
  | escaped hb hstart hbody => exact hn ▸ nextSpan_escaped hb hstart hbody hn ht i start lastEnd
  | number hnumber =>
    have hrun := (scanNumber_extends hnumber).run trivial
    rw [← hn, ← List.cons_append, ← List.length_cons, List.take_left] at hrun
    exact hn ▸ hplain (plainRun_of_number hrun)
  | dot hb =>
    obtain rfl := List.length_eq_zero_iff.mp hn
    exact hplain (plainRun_of_number ⟨.inr (.inl hb), trivial⟩)
  | param hb hparam =>
    obtain ⟨hlen, hne⟩ := scanParam_ok hparam
    have hdigits := append_eq_of_length (hn.trans hlen)
    cases p with
    | nil => exact absurd hn.symm hne
    | cons d p =>
      have hwords : ∀ b ∈ d :: p, isWordByte b = true := fun b hb =>
        isWordByte_of_digit (hdigits b hb)
      exact hn ▸ hplain ⟨chunk_param hb (hdigits d List.mem_cons_self),
        plainRun_of_number (numberRun_of_word hwords)⟩
  | word hb =>
    have hword := append_eq_of_length hn
    have hfirst : isWordByte b = true := by
      rw [Bool.or_eq_true] at hb
      rcases hb with hb | hb <;> simp [isWordByte, hb]
    exact hn ▸ hplain (plainRun_of_number ⟨.inl hfirst, numberRun_of_word hword⟩)

end Jed.Sql
