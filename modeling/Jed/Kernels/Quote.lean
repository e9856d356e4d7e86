import Jed.Kernels.Codecs
import Jed.Sql.Reading

/-!
# Quoted texts

`quote_literal` and `quote_ident` (`kernels.rs:513-573`) over the bytes of the text, and what the lexer
makes of them.
-/

namespace Jed.Kernels

open Sql

/-- `QUOTED_KEYWORDS`. -/
def QUOTED_KEYWORDS : List String :=
  ["all", "analyse", "analyze", "and", "any", "array", "as", "asc", "asymmetric", "authorization",
    "between", "bigint", "binary", "bit", "boolean", "both", "case", "cast", "char", "character",
    "check", "coalesce", "collate", "collation", "column", "concurrently", "constraint", "create",
    "cross", "current_catalog", "current_date", "current_role", "current_schema", "current_time",
    "current_timestamp", "current_user", "dec", "decimal", "default", "deferrable", "desc", "distinct",
    "do", "else", "end", "except", "exists", "extract", "false", "fetch", "float", "for", "foreign",
    "freeze", "from", "full", "grant", "greatest", "group", "grouping", "having", "ilike", "in",
    "initially", "inner", "inout", "int", "integer", "intersect", "interval", "into", "is", "isnull",
    "join", "json", "json_array", "json_arrayagg", "json_exists", "json_object", "json_objectagg",
    "json_query", "json_scalar", "json_serialize", "json_table", "json_value", "lateral", "leading",
    "least", "left", "like", "limit", "localtime", "localtimestamp", "merge_action", "national",
    "natural", "nchar", "none", "normalize", "not", "notnull", "null", "nullif", "numeric", "offset",
    "on", "only", "or", "order", "out", "outer", "overlaps", "overlay", "placing", "position",
    "precision", "primary", "real", "references", "returning", "right", "row", "select",
    "session_user", "setof", "similar", "smallint", "some", "substring", "symmetric", "system_user",
    "table", "tablesample", "then", "time", "timestamp", "to", "trailing", "treat", "trim", "true",
    "union", "unique", "user", "using", "values", "varchar", "variadic", "verbose", "when", "where",
    "window", "with", "xmlattributes", "xmlconcat", "xmlelement", "xmlexists", "xmlforest",
    "xmlnamespaces", "xmlparse", "xmlpi", "xmlroot", "xmlserialize", "xmltable"]

/-- A text with each `quote` doubled. -/
def doubled (quote : UInt8) (s : Bytes) : Bytes :=
  s.flatMap fun b => if b = quote then [quote, quote] else [b]

/-- `quote_literal_text`. -/
def quoteLiteral (s : Bytes) : Bytes :=
  let inner := s.flatMap fun b =>
    if b = ascii '\'' then [ascii '\'', ascii '\'']
    else if b = ascii '\\' then [ascii '\\', ascii '\\']
    else [b]
  if s.contains (ascii '\\') then [ascii 'E', ascii '\''] ++ inner ++ [ascii '\'']
  else [ascii '\''] ++ inner ++ [ascii '\'']

/-- The first byte of an identifier that needs no quotes, and its other bytes. -/
def safeStart (b : UInt8) : Bool := is b '_' || (97 ≤ b.toNat && b.toNat ≤ 122)
def safeByte (b : UInt8) : Bool := safeStart b || isDigit b

/-- `safe`. -/
def isSafe (s : Bytes) : Bool :=
  match s with
  | [] => false
  | b :: rest => safeStart b && rest.all safeByte && !(QUOTED_KEYWORDS.map text).contains s

/-- `quote_ident_text`. -/
def quoteIdent (s : Bytes) : Bytes :=
  if isSafe s then s else [ascii '"'] ++ doubled (ascii '"') s ++ [ascii '"']

variable {quote b : UInt8} {rest : Bytes}

theorem scanQuotedBody_cons (h : b ≠ quote) (hrest : rest ≠ []) :
    scanQuotedBody quote (b :: rest) =
      (scanQuotedBody quote rest).map fun p => (b :: p.1, 1 + p.2) := by
  cases rest with
  | nil => exact absurd rfl hrest
  | cons c rest =>
    rw [scanQuotedBody, if_neg (by simpa using h)]

/-- A doubled text is read back to its closing quote. -/
theorem scanQuotedBody_doubled (quote : UInt8) (s : Bytes) :
    scanQuotedBody quote (doubled quote s ++ [quote]) = some (s, (doubled quote s).length + 1) := by
  induction s with
  | nil => simp [doubled, scanQuotedBody]
  | cons b s ih =>
    rw [doubled, List.flatMap_cons, ← doubled]
    by_cases hb : b = quote
    · subst hb
      rw [if_pos rfl]
      simp only [List.cons_append, List.nil_append]
      rw [scanQuotedBody, ih]
      simp
      omega
    · rw [if_neg hb, List.singleton_append, List.cons_append, scanQuotedBody_cons hb (by simp), ih]
      simp
      omega

variable {s : Bytes} {token : Token}

/-- The one token of a quoted text. -/
theorem scan_quoted (hquote : quote = ascii '\'' ∨ quote = ascii '"')
    (h : quotedToken quote s false = .ok token) :
    scan ([quote] ++ doubled quote s ++ [quote]) 0 0 = .ok [⟨token, 0, false⟩] := by
  have hstep : step quote (doubled quote s ++ [quote]) =
      .ok (some (token, false), (doubled quote s ++ [quote]).length) := by
    have hplain : isBlank quote = false ∧ is quote '-' = false ∧ is quote '/' = false ∧
        (operators.find? fun op => is quote op.1) = none ∧
        (is quote '\'' || is quote '"') = true := by
      rcases hquote with rfl | rfl <;> decide
    obtain ⟨hblank, hhyphen, hslash, hop, hq⟩ := hplain
    rw [step, hblank, hhyphen, hslash, hop]
    simp only [Bool.false_eq_true, if_false, Bool.false_and, hq, if_true, scanQuotedBody_doubled, h,
      List.length_append, List.length_singleton]
    rfl
  have hskip := scan_skip (doubled quote s ++ [quote]) [] (0 + 1)
  rw [List.append_nil] at hskip
  rw [List.append_assoc, List.singleton_append, scan, hstep]
  simp only [bind, Except.bind, hskip]
  rfl

theorem lex_of_scan (hzero : (0 : UInt8) ∉ s)
    (h : scan s 0 0 = .ok [⟨token, 0, false⟩]) : lex s = .ok [token, .eof] := by
  have hcheck : checkTextEncoding s = .ok () := by
    rw [checkTextEncoding, if_neg (by simpa using hzero)]
  rw [lex, hcheck, h]
  rfl

theorem zero_not_mem_doubled (hquote : quote ≠ 0) (h : (0 : UInt8) ∉ s) :
    (0 : UInt8) ∉ [quote] ++ doubled quote s ++ [quote] := by
  intro hmem
  simp only [doubled, List.mem_append, List.mem_singleton, List.mem_flatMap] at hmem
  rcases hmem with (hmem | ⟨b, hb, hmem⟩) | hmem
  · exact hquote hmem.symm
  · split at hmem
    · simp only [List.mem_cons, List.not_mem_nil, or_false, or_self] at hmem
      exact hquote hmem.symm
    · rw [List.mem_singleton.mp hmem] at h
      exact h hb
  · exact hquote hmem.symm

theorem quoteLiteral_eq (h : ascii '\\' ∉ s) :
    quoteLiteral s = [ascii '\''] ++ doubled (ascii '\'') s ++ [ascii '\''] := by
  have hinner : (s.flatMap fun b =>
      if b = ascii '\'' then [ascii '\'', ascii '\'']
      else if b = ascii '\\' then [ascii '\\', ascii '\\']
      else [b]) = doubled (ascii '\'') s := by
    refine List.flatMap_congr fun b hb => ?_
    have hne : b ≠ ascii '\\' := fun heq => h (heq ▸ hb)
    rw [if_neg hne]
  rw [quoteLiteral, hinner, if_neg (by simpa using h)]

theorem lex_quoteLiteral (hzero : (0 : UInt8) ∉ s) (h : ascii '\\' ∉ s) :
    lex (quoteLiteral s) = .ok [.str s, .eof] := by
  rw [quoteLiteral_eq h]
  exact lex_of_scan (zero_not_mem_doubled (by decide) hzero) (scan_quoted (.inl rfl) rfl)

/-- A byte that may begin an identifier without quotes begins a word. -/
theorem safeStart_word (h : safeStart b = true) :
    isBlank b = false ∧ is b '-' = false ∧ is b '/' = false ∧
      (operators.find? fun op => is b op.1) = none ∧ (is b '\'' || is b '"') = false ∧
      isDigit b = false ∧ is b '.' = false ∧ is b '$' = false ∧ (isAlpha b || is b '_') = true := by
  have hall : ∀ k : Fin 256, safeStart (UInt8.ofNat k) = true →
      isBlank (UInt8.ofNat k) = false ∧ is (UInt8.ofNat k) '-' = false ∧
        is (UInt8.ofNat k) '/' = false ∧
        (operators.find? fun op => is (UInt8.ofNat k) op.1) = none ∧
        (is (UInt8.ofNat k) '\'' || is (UInt8.ofNat k) '"') = false ∧
        isDigit (UInt8.ofNat k) = false ∧ is (UInt8.ofNat k) '.' = false ∧
        is (UInt8.ofNat k) '$' = false ∧
        (isAlpha (UInt8.ofNat k) || is (UInt8.ofNat k) '_') = true := by decide +kernel
  have hb := hall ⟨b.toNat, b.toNat_lt⟩
  rw [UInt8.ofNat_toNat] at hb
  exact hb h

theorem safeByte_word (h : safeByte b = true) :
    isWordByte b = true ∧ lower b = b ∧ is b '&' = false ∧ b ≠ 0 := by
  have hall : ∀ k : Fin 256, safeByte (UInt8.ofNat k) = true →
      isWordByte (UInt8.ofNat k) = true ∧ lower (UInt8.ofNat k) = UInt8.ofNat k ∧
        is (UInt8.ofNat k) '&' = false ∧ UInt8.ofNat k ≠ 0 := by decide +kernel
  have hb := hall ⟨b.toNat, b.toNat_lt⟩
  rw [UInt8.ofNat_toNat] at hb
  exact hb h

/-- The one token of an identifier without quotes. -/
theorem scan_safe (hstart : safeStart b = true)
    (hrest : ∀ c ∈ rest, safeByte c = true) (hlen : (b :: rest).length ≤ MAX_IDENTIFIER_LENGTH) :
    scan (b :: rest) 0 0 = .ok [⟨.word (b :: rest), 0, false⟩] := by
  obtain ⟨hblank, hhyphen, hslash, hop, hquote, hdigit, hdot, hdollar, hword⟩ := safeStart_word hstart
  have hall : ∀ c ∈ b :: rest, safeByte c = true :=
    List.forall_mem_cons.mpr ⟨by rw [safeByte, hstart]; rfl, hrest⟩
  have htake : rest.takeWhile isWordByte = rest :=
    List.takeWhile_eq_self_iff.mpr fun c hc => (safeByte_word (hrest c hc)).1
  have hlower : (b :: rest).map lower = b :: rest :=
    (List.map_congr_left fun c hc => (safeByte_word (hall c hc)).2.1).trans (List.map_id _)
  have hescaped : beginsEscaped rest = false := by
    cases rest with
    | nil => rfl
    | cons c rest =>
      have hamp := (safeByte_word (hrest c List.mem_cons_self)).2.2.1
      simp [beginsEscaped, startsWith, hamp]
  have hstep : step b rest = .ok (some (.word (b :: rest), false), rest.length) := by
    rw [step, hblank, hhyphen, hslash, hop]
    simp only [Bool.false_eq_true, if_false, Bool.false_and, hquote, hescaped, Bool.and_false, hdigit,
      hdot,
      hdollar, hword, if_true, htake, hlower, List.length_cons, Nat.add_sub_cancel]
    rw [if_neg (by simpa using hlen)]
  have hskip := scan_skip rest [] (0 + 1)
  rw [List.append_nil] at hskip
  rw [scan, hstep]
  simp only [bind, Except.bind, hskip]
  rfl

/-- The token of an identifier, with or without quotes. -/
def identToken (s : Bytes) : Token := if isSafe s then .word s else .quotedIdent s

/-- A text that is neither empty nor too long for an identifier is one token as one. -/
theorem lex_quoteIdent (hzero : (0 : UInt8) ∉ s) (hne : s ≠ [])
    (hlen : s.length ≤ MAX_IDENTIFIER_LENGTH) : lex (quoteIdent s) = .ok [identToken s, .eof] := by
  unfold quoteIdent identToken
  by_cases hsafe : isSafe s = true
  · rw [if_pos hsafe, if_pos hsafe]
    refine lex_of_scan hzero ?_
    cases s with
    | nil => exact absurd rfl hne
    | cons b rest =>
      rw [isSafe, Bool.and_eq_true, Bool.and_eq_true] at hsafe
      exact scan_safe hsafe.1.1 (List.all_eq_true.mp hsafe.1.2) hlen
  · rw [if_neg hsafe, if_neg hsafe]
    refine lex_of_scan (zero_not_mem_doubled (by decide) hzero) (scan_quoted (.inr rfl) ?_)
    have hempty : s.isEmpty = false := by
      cases s with
      | nil => exact absurd rfl hne
      | cons b s => rfl
    rw [quotedToken, if_neg (by decide), hempty]
    simp [hlen]

end Jed.Kernels
