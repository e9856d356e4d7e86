import Jed.Sql.Reading

/-!
# The splitter and the lexer

`split_statements` gives back the texts that were joined, each with the tokens it lexes to, as long
as no text has a hyphen after an operator that ends in one: there the splitter sees a comment.
-/

namespace Jed.Sql

open Results

/-- A text that the lexer accepts, with a token in it before the end. -/
structure Candidate where
  bytes : Bytes
  accepted : ∃ x y rest, lex bytes = .ok (x :: y :: rest)

/-- What may stand between two statements. -/
inductive Filler where
  | semicolon
  | blank (b : UInt8) (h : isBlank b = true)
  | line (body : Bytes) (h : ∀ b ∈ body, isEol b = false) (eol : UInt8) (heol : isEol eol = true)
  | block (body : Bytes) (h : scanBlock 1 body = some body.length)

/-- The hyphen, the semicolon and the line break. -/
def hyphen : UInt8 := '-'.toUInt8
def semicolon : UInt8 := ';'.toUInt8
def newline : UInt8 := '\n'.toUInt8

def Filler.bytes : Filler → Bytes
  | semicolon => [Sql.semicolon]
  | blank b _ => [b]
  | line body _ eol _ => hyphen :: hyphen :: (body ++ [eol])
  | block body _ => '/'.toUInt8 :: '*'.toUInt8 :: body

def fillerBytes (fillers : List Filler) : Bytes := fillers.flatMap Filler.bytes

/-- Fillers with a semicolon among them. -/
structure Separator where
  fillers : List Filler
  separates : Filler.semicolon ∈ fillers

/-- Texts joined, each with a line break and its separator after it. -/
def joined : List (Candidate × Separator) → Bytes
  | [] => []
  | [(c, _)] => c.bytes
  | (c, sep) :: rest => c.bytes ++ newline :: (fillerBytes sep.fillers ++ joined rest)

/-- The joined texts and where each one starts. -/
def placed : ℕ → List (Candidate × Separator) → List (ℕ × Bytes)
  | _, [] => []
  | i, (c, sep) :: rest =>
    (i, c.bytes) :: placed (i + c.bytes.length + 1 + (fillerBytes sep.fillers).length) rest

/-- Where the first token of a text starts. -/
def firstStart (s : Bytes) : ℕ :=
  match scan s 0 0 with
  | .ok (x :: _) => x.start
  | _ => 0

/-- The span has the tokens of the text, and starts where its first one does. -/
structure SpanOf (place : ℕ × Bytes) (span : StatementSpan) : Prop where
  lexes : lex span.text = lex place.2
  offset : span.offset = place.1 + firstStart place.2

/-- The splitter gives back the joined texts. -/
def Agrees (parts : List (Candidate × Separator)) : Prop :=
  List.Forall₂ SpanOf (placed 0 parts) (splitStatements (joined parts))

/-- Where the first operator of a text ends that ends in a hyphen and has one after it. -/
def firstGlue (s : Bytes) : Option ℕ :=
  match scan s 0 0 with
  | .ok l => l.findSome? (glue s)
  | .error _ => none

/-- The splitter finds `st` to `e` in the text, whatever stands before and after it. -/
structure Spans (s : Bytes) (st e : ℕ) : Prop where
  start : st ≤ e
  le : e ≤ s.length
  span : ∀ t d lastEnd, Ends t → nextSpan (s ++ t) 0 d none lastEnd =
    nextSpan t 0 (d + s.length) (some (d + st)) (d + e)

theorem Candidate.lexes (c : Candidate) : ∃ x l i', scan c.bytes 0 0 = .ok (x :: l) ∧
    Lexes c.bytes 0 (x :: l) [] i' := by
  obtain ⟨x, y, rest, h⟩ := c.accepted
  unfold lex at h
  obtain ⟨_, -, h⟩ := bind_eq_ok.mp h
  obtain ⟨l, hscan, h⟩ := bind_eq_ok.mp h
  cases l with
  | nil => cases h
  | cons x l =>
    obtain ⟨i', hlexes⟩ := lexes_of_scan hscan
    exact ⟨x, l, i', hscan, hlexes⟩

theorem Candidate.encoded (c : Candidate) : checkTextEncoding c.bytes = .ok () := by
  obtain ⟨x, y, rest, h⟩ := c.accepted
  unfold lex at h
  obtain ⟨⟨⟩, hcheck, -⟩ := bind_eq_ok.mp h
  exact hcheck

theorem checkTextEncoding_sublist {s v : Bytes} (h : checkTextEncoding s = .ok ()) (hv : v.Sublist s) :
    checkTextEncoding v = .ok () := by
  unfold checkTextEncoding at h ⊢
  split at h
  · cases h
  · rename_i hs
    refine if_neg fun hzero => hs ?_
    rw [List.contains_iff_mem] at hzero ⊢
    exact hv.subset hzero

theorem lex_of_tokens {s v : Bytes} {l l' : List Lexeme} (hs : checkTextEncoding s = .ok ())
    (hv : v.Sublist s) (hscan : scan s 0 0 = .ok l) (hscan' : scan v 0 0 = .ok l')
    (h : l'.map (fun x => (x.token, x.escaped)) = l.map fun x => (x.token, x.escaped)) :
    lex v = lex s := by
  rw [lex, lex, hs, checkTextEncoding_sublist hs hv, hscan, hscan']
  simp only [ok_bind, h]

theorem ends_nil : Ends [] := by
  intro b hb
  cases hb

theorem take_drop_middle (u v r : Bytes) : ((u ++ (v ++ r)).drop u.length).take v.length = v := by
  rw [List.drop_left, List.take_left]

theorem sublist_middle (u v r : Bytes) : v.Sublist (u ++ (v ++ r)) :=
  (List.sublist_append_left v r).trans (List.sublist_append_right u (v ++ r))

/-- A text without a glued hyphen is found whole. -/
theorem spans_of_unglued (c : Candidate) (h : firstGlue c.bytes = none) :
    ∃ e, Spans c.bytes (firstStart c.bytes) e ∧
      lex ((c.bytes.drop (firstStart c.bytes)).take (e - firstStart c.bytes)) = lex c.bytes := by
  obtain ⟨x, l, i', hscan, hlexes⟩ := c.lexes
  have hfirst : firstStart c.bytes = x.start := by rw [firstStart, hscan]
  have hglue : ∀ y ∈ x :: l, glue c.bytes y = none := by
    rw [firstGlue, hscan] at h
    exact List.findSome?_eq_none_iff.mp h
  obtain ⟨r, j, hr, hj, hspan⟩ := nextSpan_reads (u := []) hlexes rfl hglue
  obtain ⟨b, p, s₁, hlead, htoken, hrest⟩ := Lexes.lead hr
  have hfrom : Lexes (b :: (p ++ s₁)) x.start (x :: l) r j := .token htoken hrest
  obtain ⟨u, hu, hstart⟩ := hlead.append
  obtain ⟨v, hv, hend⟩ := hfrom.append
  obtain ⟨k, -, hk⟩ := hlexes.append
  obtain ⟨w, hw, hlen⟩ := hr.append
  rw [List.length_nil, Nat.zero_add] at hstart hlen
  rw [hv] at hu hfrom
  have hread : Lexes v x.start (x :: l) [] j := hfrom.cut (v := []) (hj.stops stops_nil)
  obtain ⟨l', hscan', htokens⟩ := hread.tokens
  have hall : i' = c.bytes.length := by
    obtain ⟨whole, heq, hi'⟩ := hlexes.append
    rw [List.append_nil] at heq
    rw [heq, hi', Nat.zero_add]
  refine ⟨j, ⟨by omega, ?_, fun t d lastEnd ht => ?_⟩, ?_⟩
  · rw [hw, List.length_append, hlen]
    exact Nat.le_add_right _ _
  · rw [hfirst, ← hall]
    exact hspan t ht d none lastEnd
  · have hsub : j - x.start = v.length := by omega
    have hpart : (c.bytes.drop x.start).take (j - x.start) = v := by
      rw [hsub, hstart, hu]
      exact take_drop_middle u v r
    rw [hfirst, hpart]
    refine lex_of_tokens c.encoded ?_ hscan hscan' htokens
    rw [hu]
    exact sublist_middle u v r

theorem lex_ne_ok {v : Bytes} {i : ℕ} {err : LexError} (h : scan v 0 i = .error err)
    (tokens : List Token) : lex v ≠ .ok tokens := by
  intro hlex
  unfold lex at hlex
  obtain ⟨_, -, hlex⟩ := bind_eq_ok.mp hlex
  obtain ⟨l, hscan, -⟩ := bind_eq_ok.mp hlex
  rw [show i = i + 0 from rfl, scan_moved, hscan] at h
  cases h

/-- A text with a glued hyphen on its last line is cut short there, and what is found of it does not
lex. -/
theorem spans_of_glued (c : Candidate) {g : ℕ} (h : firstGlue c.bytes = some g)
    (hline : ∀ b ∈ c.bytes.drop g, isEol b = false) :
    ∃ st e, Spans c.bytes st e ∧ ∀ tokens, lex ((c.bytes.drop st).take (e - st)) ≠ .ok tokens := by
  obtain ⟨x₀, l₀, i', hscan, hlexes⟩ := c.lexes
  rw [firstGlue, hscan] at h
  obtain ⟨l₁, x, l₂, hl, hg, hnone⟩ := List.findSome?_eq_some_iff.mp h
  rw [hl] at hlexes
  obtain ⟨r₁, j₁, hbefore, hafter⟩ := hlexes.split
  obtain ⟨b, p, s₁, hlead, htoken, hrest⟩ := hafter.lead
  have hreads := hbefore.trans hlead
  rw [List.append_nil] at hreads
  obtain ⟨u, hu, hstart⟩ := hreads.append
  rw [Nat.zero_add] at hstart
  have htaken := taken_of_step htoken
  have hglue := glue_eq hu htaken
  rw [← hstart, hg] at hglue
  split at hglue
  case isFalse => cases hglue
  case isTrue hhyphen =>
  rw [Bool.and_eq_true] at hhyphen
  obtain ⟨q, hq, hne, hplain, herr⟩ := cut_short htaken hhyphen.1
  have hrest₁ : c.bytes.drop g = s₁ := by
    rw [Option.some.inj hglue, hstart, hu, ← List.cons_append, ← List.append_assoc]
    refine List.drop_left' ?_
    rw [List.length_append, List.length_cons]
    omega
  rw [hrest₁] at hline
  have hq' : b :: (p ++ s₁) = q ++ 45 :: s₁ := by
    rw [← List.cons_append, hq, List.append_assoc, List.singleton_append]
  have hlen : c.bytes.length = x.start + (b :: (p ++ s₁)).length := by
    rw [hu, List.length_append, hstart]
  have hle : x.start + q.length ≤ c.bytes.length := by
    rw [hlen, hq', List.length_append]
    omega
  have hspan {t : Bytes} (ht : Ends t) (d : ℕ) (start : Option ℕ) (lastEnd : ℕ) :
      nextSpan (b :: (p ++ s₁) ++ t) 0 (d + x.start) start lastEnd =
        nextSpan t 0 (d + c.bytes.length) (some (start.getD (d + x.start)))
          (d + (x.start + q.length)) := by
    rw [nextSpan_cut_short hq hne hplain hhyphen.2 hline ht, hlen, Nat.add_assoc, Nat.add_assoc]
  cases l₁ with
  | nil =>
    refine ⟨x.start, x.start + q.length, ⟨Nat.le_add_right _ _, hle, fun t d lastEnd ht => ?_⟩, ?_⟩
    · exact (nextSpan_gap hreads ht d none lastEnd).trans (hspan ht d none lastEnd)
    · obtain ⟨err, hscanq⟩ := herr 0
      rw [Nat.add_sub_cancel_left, hstart, hu, hq', take_drop_middle]
      exact lex_ne_ok hscanq
  | cons y l =>
    obtain ⟨r, j, -, -, hto⟩ := nextSpan_reads (u := []) hreads rfl hnone
    obtain ⟨b', p', s', hfirst, htoken', hrest'⟩ := hreads.lead
    have hfrom : Lexes (b' :: (p' ++ s')) y.start (y :: l) (b :: (p ++ s₁)) x.start :=
      .token htoken' hrest'
    obtain ⟨u', hu', hstart'⟩ := hfirst.append
    obtain ⟨v, hv, hend⟩ := hfrom.append
    rw [Nat.zero_add] at hstart'
    rw [hq', ← List.append_assoc] at hv
    rw [hq'] at hfrom
    rw [hv] at hu' hfrom
    have hread : Lexes (v ++ q) y.start (y :: l) q x.start := by
      refine hfrom.cut fun b hb => ?_
      cases hb
      decide
    refine ⟨y.start, x.start + q.length, ⟨by omega, hle, fun t d lastEnd ht => ?_⟩, ?_⟩
    · exact (hto t ht d none lastEnd).trans (hspan ht d _ _)
    · obtain ⟨err, hscanq⟩ := herr x.start
      have hscanv := hread.scan_eq
      rw [hscanq] at hscanv
      have hsub : x.start + q.length - y.start = (v ++ q).length := by
        rw [List.length_append]
        omega
      rw [hsub, hstart', hu', take_drop_middle]
      exact lex_ne_ok hscanv

theorem isBlank_of_isEol {b : UInt8} (h : isEol b = true) : isBlank b = true := by
  rw [isEol, Bool.or_eq_true] at h
  rcases h with h | h <;> simp [isBlank, h]

theorem nextSpan_eol {eol : UInt8} (h : isEol eol = true) (t : Bytes) (i : ℕ) (start : Option ℕ)
    (lastEnd : ℕ) : nextSpan (eol :: t) 0 i start lastEnd = nextSpan t 0 (i + 1) start lastEnd := by
  rw [nextSpan, chunk, if_pos (isBlank_of_isEol h)]

theorem nextSpan_filler {f : Filler} {start : Option ℕ} (h : f = .semicolon → start = none) (t : Bytes)
    (i lastEnd : ℕ) :
    nextSpan (f.bytes ++ t) 0 i start lastEnd = nextSpan t 0 (i + f.bytes.length) start lastEnd := by
  cases f with
  | semicolon =>
    rw [h rfl]
    rfl
  | blank b hb =>
    rw [Filler.bytes, List.singleton_append, nextSpan, chunk, if_pos hb]
    rfl
  | line body hbody eol heol =>
    have htake : (body ++ eol :: t).takeWhile (fun b => !isEol b) = body := by
      rw [List.takeWhile_append_of_pos (by simpa using hbody), List.takeWhile_cons, if_neg (by simp [heol]),
        List.append_nil]
    have hchunk : chunk hyphen (hyphen :: (body ++ eol :: t)) = (.blank, 1 + body.length) := by
      rw [chunk, if_neg (by decide), if_neg (by decide), if_pos (by rfl), List.tail_cons, htake]
    have hbytes : (Filler.line body hbody eol heol).bytes ++ t =
        hyphen :: (hyphen :: body ++ eol :: t) := by simp [Filler.bytes]
    have hskip := nextSpan_skip (hyphen :: body) (eol :: t) (i + 1) start lastEnd
    rw [List.length_cons, Nat.add_comm body.length 1] at hskip
    rw [hbytes, nextSpan, List.cons_append, hchunk]
    refine hskip.trans ?_
    rw [nextSpan_eol heol]
    simp [Filler.bytes, Nat.add_comm, Nat.add_left_comm]
  | block body hbody =>
    have hchunk : chunk '/'.toUInt8 ('*'.toUInt8 :: (body ++ t)) = (.blank, 1 + body.length) := by
      have hminus : ¬ (is '/'.toUInt8 '-' && startsWith ['-'] ('*'.toUInt8 :: (body ++ t))) = true := by
        rw [Bool.and_eq_true]
        exact fun h => absurd h.1 (by decide)
      rw [chunk, if_neg (by decide), if_neg (by decide), if_neg hminus, if_pos (by rfl),
        List.tail_cons, skipBlock_of_scan hbody]
    have hskip := nextSpan_skip ('*'.toUInt8 :: body) t (i + 1) start lastEnd
    rw [List.length_cons, Nat.add_comm body.length 1] at hskip
    rw [Filler.bytes, List.cons_append, List.cons_append, nextSpan, hchunk]
    refine hskip.trans ?_
    simp [Nat.add_assoc, Nat.add_comm]

theorem nextSpan_fillers (fillers : List Filler) (t : Bytes) (i lastEnd : ℕ) :
    nextSpan (fillerBytes fillers ++ t) 0 i none lastEnd =
      nextSpan t 0 (i + (fillerBytes fillers).length) none lastEnd := by
  induction fillers generalizing i with
  | nil => rfl
  | cons f fillers ih =>
    rw [fillerBytes, List.flatMap_cons, List.append_assoc, nextSpan_filler fun _ => rfl]
    rw [List.length_append, ← Nat.add_assoc]
    exact ih _

/-- The first semicolon ends a statement, and what stands after it leads to the next one. -/
theorem nextSpan_separator {fillers : List Filler} (h : Filler.semicolon ∈ fillers) (t : Bytes)
    (i st lastEnd : ℕ) : ∃ v after, fillerBytes fillers = v ++ fillerBytes after ∧
      nextSpan (fillerBytes fillers ++ t) 0 i (some st) lastEnd = (some (st, lastEnd), i + v.length) := by
  induction fillers generalizing i with
  | nil => cases h
  | cons f fillers ih =>
    by_cases hf : f = .semicolon
    · subst hf
      exact ⟨[semicolon], fillers, rfl, rfl⟩
    · have hmem : Filler.semicolon ∈ fillers := (List.mem_cons.mp h).resolve_left (Ne.symm hf)
      obtain ⟨v, after, hv, hspan⟩ := ih hmem (i + f.bytes.length)
      refine ⟨f.bytes ++ v, after, ?_, ?_⟩
      · rw [List.append_assoc, ← hv]
        rfl
      · rw [fillerBytes, List.flatMap_cons, List.append_assoc, nextSpan_filler fun heq => absurd heq hf]
        rw [List.length_append, ← Nat.add_assoc]
        exact hspan

/-- What stands after a text in the joined ones. -/
def following (sep : Separator) : List (Candidate × Separator) → Bytes
  | [] => []
  | part :: rest => newline :: (fillerBytes sep.fillers ++ joined (part :: rest))

theorem joined_cons (c : Candidate) (sep : Separator) (rest : List (Candidate × Separator)) :
    joined ((c, sep) :: rest) = c.bytes ++ following sep rest := by
  cases rest with
  | nil =>
    rw [following, List.append_nil]
    rfl
  | cons => rfl

theorem ends_following (sep : Separator) (rest : List (Candidate × Separator)) :
    Ends (following sep rest) := by
  cases rest with
  | nil => exact ends_nil
  | cons =>
    intro b hb
    cases hb
    decide

theorem take_drop_inner (pre s t : Bytes) {st e : ℕ} (hst : st ≤ e) (he : e ≤ s.length) :
    ((pre ++ (s ++ t)).drop (pre.length + st)).take (pre.length + e - (pre.length + st)) =
      (s.drop st).take (e - st) := by
  rw [← List.drop_drop, List.drop_left, Nat.add_sub_add_left]
  rw [List.drop_append_of_le_length (hst.trans he)]
  refine List.take_append_of_le_length ?_
  rw [List.length_drop]
  exact Nat.sub_le_sub_right he st

/-- What stands after a text ends its statement, and leads to the next one. -/
theorem nextSpan_following (sep : Separator) (rest : List (Candidate × Separator)) (i st lastEnd : ℕ) :
    ∃ v fillers, following sep rest = v ++ (fillerBytes fillers ++ joined rest) ∧
      (rest ≠ [] → v.length + (fillerBytes fillers).length = 1 + (fillerBytes sep.fillers).length) ∧
      nextSpan (following sep rest) 0 i (some st) lastEnd = (some (st, lastEnd), i + v.length) := by
  cases rest with
  | nil => exact ⟨[], [], rfl, fun h => absurd rfl h, rfl⟩
  | cons part rest =>
    obtain ⟨v, after, hv, hspan⟩ :=
      nextSpan_separator sep.separates (joined (part :: rest)) (i + 1) st lastEnd
    refine ⟨newline :: v, after, ?_, fun _ => ?_, ?_⟩
    · rw [following, hv, List.append_assoc]
      rfl
    · rw [hv, List.length_cons, List.length_append]
      omega
    · rw [following, nextSpan_eol (by decide), hspan, List.length_cons, Nat.add_assoc,
        Nat.add_comm 1]

/-- A call of the iterator: it yields what the splitter finds of the next text, and leaves the texts
after it. -/
theorem next_of_spans {c : Candidate} {st e : ℕ} (h : Spans c.bytes st e) (sep : Separator)
    (rest : List (Candidate × Separator)) (pre : Bytes) (fillers : List Filler) :
    ∃ pre' fillers', pre ++ (fillerBytes fillers ++ joined ((c, sep) :: rest)) =
        pre' ++ (fillerBytes fillers' ++ joined rest) ∧
      (rest ≠ [] → pre'.length + (fillerBytes fillers').length = pre.length +
        (fillerBytes fillers).length + c.bytes.length + 1 + (fillerBytes sep.fillers).length) ∧
      SplitStatements.next (pre ++ (fillerBytes fillers ++ joined ((c, sep) :: rest))) pre.length =
        (some ⟨(c.bytes.drop st).take (e - st), pre.length + (fillerBytes fillers).length + st⟩,
          pre'.length) := by
  obtain ⟨v, after, hv, hlen, hnext⟩ := nextSpan_following sep rest
    (pre.length + (fillerBytes fillers).length + c.bytes.length)
    (pre.length + (fillerBytes fillers).length + st) (pre.length + (fillerBytes fillers).length + e)
  have hspan := h.span (following sep rest) (pre.length + (fillerBytes fillers).length) pre.length
    (ends_following sep rest)
  rw [hnext, ← nextSpan_fillers fillers, ← joined_cons] at hspan
  refine ⟨pre ++ fillerBytes fillers ++ c.bytes ++ v, after, ?_, fun hrest => ?_, ?_⟩
  · rw [joined_cons, hv]
    simp only [List.append_assoc]
  · have := hlen hrest
    simp only [List.length_append]
    omega
  · rw [SplitStatements.next, List.drop_left, hspan]
    have htext := take_drop_inner (pre ++ fillerBytes fillers) c.bytes (following sep rest) h.start h.le
    rw [List.length_append, List.append_assoc, ← joined_cons] at htext
    simp only [Option.map_some, htext, List.length_append]

theorem next_joined_nil (pre : Bytes) (fillers : List Filler) :
    (SplitStatements.next (pre ++ (fillerBytes fillers ++ joined [])) pre.length).1 = none := by
  rw [SplitStatements.next, List.drop_left, nextSpan_fillers]
  rfl

theorem Candidate.ne_nil (c : Candidate) : c.bytes ≠ [] := by
  intro h
  obtain ⟨x, l, i', hscan, -⟩ := c.lexes
  rw [h] at hscan
  cases hscan

theorem length_le_joined (parts : List (Candidate × Separator)) :
    parts.length ≤ (joined parts).length := by
  induction parts with
  | nil => exact Nat.zero_le _
  | cons part rest ih =>
    have hpos := List.length_pos_of_ne_nil part.1.ne_nil
    rw [← Prod.mk.eta (p := part), joined_cons, List.length_append, List.length_cons]
    cases rest with
    | nil =>
      rw [List.length_nil]
      omega
    | cons =>
      simp only [following, List.length_cons, List.length_append] at ih ⊢
      omega

/-- The joined texts are given back by a run of the iterator when none has a glued hyphen. -/
theorem spansFrom_agrees (parts : List (Candidate × Separator))
    (h : ∀ part ∈ parts, firstGlue part.1.bytes = none) (pre : Bytes) (fillers : List Filler)
    (fuel i : ℕ) (hfuel : parts.length < fuel)
    (hi : parts ≠ [] → i = pre.length + (fillerBytes fillers).length) :
    List.Forall₂ SpanOf (placed i parts)
      (spansFrom (pre ++ (fillerBytes fillers ++ joined parts)) fuel pre.length) := by
  induction parts generalizing pre fillers fuel i with
  | nil =>
    have hnone := next_joined_nil pre fillers
    cases fuel with
    | zero => cases hfuel
    | succ fuel =>
      rw [spansFrom]
      split
      · rename_i hnext
        rw [hnext] at hnone
        cases hnone
      · exact .nil
  | cons part rest ih =>
    obtain ⟨c, sep⟩ := part
    rw [List.forall_mem_cons] at h
    cases fuel with
    | zero => cases hfuel
    | succ fuel =>
      obtain ⟨e, hspans, hlex⟩ := spans_of_unglued c h.1
      obtain ⟨pre', after, hsql, hplace, hnext⟩ := next_of_spans hspans sep rest pre fillers
      rw [spansFrom, hnext]
      have hi := hi (List.cons_ne_nil _ _)
      refine .cons ⟨hlex, by rw [hi]⟩ ?_
      rw [hsql]
      refine ih h.2 pre' after fuel _ (Nat.lt_of_succ_lt_succ hfuel) fun hrest => ?_
      rw [hi, hplace hrest]

/-- A run of the iterator that comes to a text it cuts short. -/
theorem spansFrom_glued (parts before after : List (Candidate × Separator)) {c : Candidate}
    {sep : Separator} (hparts : parts = before ++ (c, sep) :: after) {g : ℕ}
    (h : ∀ part ∈ before, firstGlue part.1.bytes = none) (hc : firstGlue c.bytes = some g)
    (hline : ∀ b ∈ c.bytes.drop g, isEol b = false) (pre : Bytes) (fillers : List Filler)
    (fuel i : ℕ) (hfuel : parts.length < fuel) :
    ¬ List.Forall₂ SpanOf (placed i parts)
      (spansFrom (pre ++ (fillerBytes fillers ++ joined parts)) fuel pre.length) := by
  subst hparts
  induction before generalizing pre fillers fuel i with
  | nil =>
    cases fuel with
    | zero => cases hfuel
    | succ fuel =>
      obtain ⟨st, e, hspans, hlex⟩ := spans_of_glued c hc hline
      obtain ⟨pre', fillers', hsql, -, hnext⟩ := next_of_spans hspans sep after pre fillers
      rw [List.nil_append, spansFrom, hnext]
      intro hagrees
      cases hagrees with
      | cons hspan _ =>
        obtain ⟨x, y, rest, haccepted⟩ := c.accepted
        exact hlex _ (hspan.lexes.trans haccepted)
  | cons part before ih =>
    obtain ⟨c₀, sep₀⟩ := part
    rw [List.forall_mem_cons] at h
    cases fuel with
    | zero => cases hfuel
    | succ fuel =>
      obtain ⟨e, hspans, hlex⟩ := spans_of_unglued c₀ h.1
      obtain ⟨pre', fillers', hsql, -, hnext⟩ :=
        next_of_spans hspans sep₀ (before ++ (c, sep) :: after) pre fillers
      rw [List.cons_append, spansFrom, hnext]
      intro hagrees
      cases hagrees with
      | cons _ hrest =>
        rw [hsql] at hrest
        exact ih h.2 pre' fillers' fuel _ (Nat.lt_of_succ_lt_succ hfuel) hrest

/-- The splitter gives back texts without a glued hyphen, each with its tokens and where it starts;
it does not when the first text that has one has it on its last line. -/
theorem splitStatements_agrees (parts : List (Candidate × Separator)) :
    ((∀ part ∈ parts, firstGlue part.1.bytes = none) → Agrees parts) ∧
      ∀ before part after g, parts = before ++ part :: after →
        (∀ part ∈ before, firstGlue part.1.bytes = none) → firstGlue part.1.bytes = some g →
        (∀ b ∈ part.1.bytes.drop g, isEol b = false) → ¬ Agrees parts := by
  have hfuel : parts.length < (joined parts).length + 1 :=
    Nat.lt_succ_of_le (length_le_joined parts)
  refine ⟨fun h => ?_, fun before part after g hparts h hpart hline => ?_⟩
  · exact spansFrom_agrees parts h [] [] _ 0 hfuel fun _ => rfl
  · exact spansFrom_glued parts before after hparts h hpart hline [] [] _ 0 hfuel

/-- `SELECT 1;` before a text with a string, a comment and a nested one. -/
theorem splitStatements_agrees_select : ∃ one two sep,
    one.bytes = text "SELECT 1" ∧ two.bytes = text "/* ; /* ; */ */ SELECT 'a;b' -- ;" ∧
      Agrees [(one, sep), (two, sep)] := by
  refine ⟨⟨text "SELECT 1", .word (text "select"), .int 1, [.eof], by decide +kernel⟩,
    ⟨text "/* ; /* ; */ */ SELECT 'a;b' -- ;", .word (text "select"), .str (text "a;b"), [.eof],
      by decide +kernel⟩, ⟨[.semicolon], List.mem_singleton_self _⟩, rfl, rfl, ?_⟩
  refine (splitStatements_agrees _).1 fun part hpart => ?_
  simp only [List.mem_cons, List.not_mem_nil, or_false] at hpart
  rcases hpart with rfl | rfl
  · decide +kernel
  · decide +kernel

/-- The splitter takes `a #` out of `a #--1`. -/
theorem splitStatements_hashMinus : ¬ ∀ parts, Agrees parts := by
  intro h
  have hparts := h [(⟨text "SELECT a #--1", .word (text "select"), .word (text "a"),
    [.hashMinus, .minus, .int 1, .eof], by decide +kernel⟩, ⟨[.semicolon], List.mem_singleton_self _⟩)]
  have hspans : splitStatements (text "SELECT a #--1") = [⟨text "SELECT a #", 0⟩] := by decide +kernel
  unfold Agrees joined at hparts
  rw [hspans] at hparts
  cases hparts with
  | cons hspan _ =>
    have hlex : lex (text "SELECT a #") ≠ lex (text "SELECT a #--1") := by decide +kernel
    exact hlex hspan.lexes

end Jed.Sql
