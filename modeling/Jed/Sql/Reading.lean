import Jed.Sql.Marks

/-!
# Reading a text token by token

The loop of the lexer as a relation, what it keeps when the end of the text is cut off, and where
the splitter stands after the same tokens.
-/

namespace Jed.Sql

open Results

/-- Lexing from `s` at byte `i` reaches `s'` at byte `i'`, with these lexemes on the way. -/
inductive Lexes : Bytes → ℕ → List Lexeme → Bytes → ℕ → Prop
  | refl (s : Bytes) (i : ℕ) : Lexes s i [] s i
  | blank {b : UInt8} {p s s' : Bytes} {i i' : ℕ} {l : List Lexeme} :
      step b (p ++ s) = .ok (none, p.length) → Lexes s (i + 1 + p.length) l s' i' →
      Lexes (b :: (p ++ s)) i l s' i'
  | token {b : UInt8} {p s s' : Bytes} {i i' : ℕ} {l : List Lexeme} {tok : Token} {esc : Bool} :
      step b (p ++ s) = .ok (some (tok, esc), p.length) → Lexes s (i + 1 + p.length) l s' i' →
      Lexes (b :: (p ++ s)) i (⟨tok, i, esc⟩ :: l) s' i'

variable {s s' : Bytes} {i i' : ℕ} {l : List Lexeme}

theorem Lexes.trans {s'' : Bytes} {i'' : ℕ} {l' : List Lexeme} (h : Lexes s i l s' i')
    (h' : Lexes s' i' l' s'' i'') : Lexes s i (l ++ l') s'' i'' := by
  induction h with
  | refl => exact h'
  | blank hstep _ ih => exact .blank hstep (ih h')
  | token hstep _ ih => exact .token hstep (ih h')

theorem Lexes.append (h : Lexes s i l s' i') :
    ∃ u, s = u ++ s' ∧ i' = i + u.length := by
  induction h with
  | refl s i => exact ⟨[], rfl, rfl⟩
  | @blank b p _ _ _ _ _ _ _ ih | @token b p _ _ _ _ _ _ _ _ _ ih =>
    obtain ⟨u, rfl, rfl⟩ := ih
    refine ⟨b :: (p ++ u), by simp, ?_⟩
    rw [List.length_cons, List.length_append]
    omega

theorem ok_bind {ε α β : Type} (a : α) (f : α → Except ε β) : (Except.ok a >>= f) = f a := rfl

theorem scan_skip (p s : Bytes) (i : ℕ) : scan (p ++ s) p.length i = scan s 0 (i + p.length) := by
  induction p generalizing i with
  | nil => rfl
  | cons b p ih =>
    rw [List.cons_append, List.length_cons, scan, ih, Nat.add_assoc, Nat.add_comm 1]

/-- The scan of a text goes through what is read of it first. -/
theorem Lexes.scan_eq (h : Lexes s i l s' i') :
    scan s 0 i = (scan s' 0 i').map (l ++ ·) := by
  induction h with
  | refl s i =>
    cases scan s 0 i <;> rfl
  | blank hstep _ ih =>
    rw [scan, hstep, ok_bind]
    dsimp only
    rw [scan_skip, ih]
    cases scan _ 0 _ <;> rfl
  | token hstep _ ih =>
    rw [scan, hstep, ok_bind]
    dsimp only
    rw [scan_skip, ih]
    cases scan _ 0 _ <;> rfl

theorem lexes_of_scan (h : scan s 0 i = .ok l) :
    ∃ i', Lexes s i l [] i' := by
  induction hlen : s.length using Nat.strong_induction_on generalizing s i l with
  | _ len ih =>
  cases s with
  | nil =>
    cases h
    exact ⟨i, .refl [] i⟩
  | cons b rest =>
    rw [scan] at h
    obtain ⟨⟨o, n⟩, hstep, h⟩ := bind_eq_ok.mp h
    have hle := (taken_of_step hstep).le
    obtain ⟨p, s, rfl, rfl⟩ : ∃ p s, rest = p ++ s ∧ n = p.length :=
      ⟨rest.take n, rest.drop n, (List.take_append_drop n rest).symm, by
        rw [List.length_take, Nat.min_eq_left hle]⟩
    obtain ⟨l', hscan, h⟩ := bind_eq_ok.mp h
    rw [scan_skip] at hscan
    have hless : s.length < len := by
      rw [← hlen, List.length_cons, List.length_append]
      omega
    obtain ⟨i', hrest⟩ := ih _ hless hscan rfl
    cases o with
    | none =>
      cases h
      exact ⟨i', .blank hstep hrest⟩
    | some tok =>
      cases h
      exact ⟨i', .token hstep hrest⟩

/-- What is read before the first token is left out. -/
theorem Lexes.lead {x : Lexeme}
    (h : Lexes s i (x :: l) s' i') : ∃ b p s₁, Lexes s i [] (b :: (p ++ s₁)) x.start ∧
      step b (p ++ s₁) = .ok (some (x.token, x.escaped), p.length) ∧
      Lexes s₁ (x.start + 1 + p.length) l s' i' := by
  generalize hl : x :: l = l' at h
  induction h with
  | refl => cases hl
  | blank hstep _ ih =>
    obtain ⟨b, p, s₁, hlead, htoken, hrest⟩ := ih hl
    exact ⟨b, p, s₁, .blank hstep hlead, htoken, hrest⟩
  | token hstep hrest =>
    cases hl
    exact ⟨_, _, _, .refl _ _, hstep, hrest⟩

theorem Lexes.split {l₁ l₂ : List Lexeme} (h : Lexes s i (l₁ ++ l₂) s' i') :
    ∃ r j, Lexes s i l₁ r j ∧ Lexes r j l₂ s' i' := by
  induction l₁ generalizing s i with
  | nil => exact ⟨s, i, .refl s i, h⟩
  | cons x l₁ ih =>
    obtain ⟨b, p, s₁, hlead, htoken, hrest⟩ := h.lead
    obtain ⟨r, j, hr, hl⟩ := ih hrest
    exact ⟨r, j, hlead.trans (.token htoken hr), hl⟩

/-- What the text goes on with after the last lexeme can be cut off. -/
theorem Lexes.cut {v w : Bytes} (hw : Stops w) (h : Lexes (s ++ w) i l (v ++ w) i') : Lexes s i l v i' := by
  generalize hs : s ++ w = sw at h
  generalize hv : v ++ w = vw at h
  induction h generalizing s with
  | refl =>
    rw [← hv] at hs
    rw [List.append_cancel_right hs]
    exact .refl v _
  | @blank b p s₁ _ _ _ _ hstep hrest ih | @token b p s₁ _ _ _ _ _ _ hstep hrest ih =>
    obtain ⟨u, hu, -⟩ := hrest.append
    obtain rfl : s₁ = u ++ v ++ w := by rw [hu, ← hv, List.append_assoc]
    obtain rfl : s = b :: (p ++ (u ++ v)) :=
      List.append_cancel_right (show s ++ w = b :: (p ++ (u ++ v)) ++ w by simpa using hs)
    have hcut := step_cut (u := p ++ (u ++ v)) hw (by rwa [List.append_assoc]) (by simp)
    first
      | exact .blank hcut (ih rfl hv)
      | exact .token hcut (ih rfl hv)

theorem Lexes.stops (h : Lexes s i [] s' i') (hs' : Stops s') : Stops s := by
  cases h with
  | refl => exact hs'
  | blank hstep =>
    intro b hb
    cases hb
    have hcodes : ∀ c : Char, c ∈ [' ', '\t', '\r', '\n', '-', '/'] → ∀ b, is b c = true →
        isWordByte b = false ∧ is b '.' = false ∧ is b '$' = false ∧ b.toNat < 0x80 := by
      intro c hc b hb
      have hcode := is_iff.mp hb
      simp only [List.mem_cons, List.not_mem_nil, or_false] at hc
      rcases hc with rfl | rfl | rfl | rfl | rfl | rfl <;>
        simp [isWordByte, isAlpha, isDigit, is, hcode]
    have htaken := taken_of_step hstep
    generalize List.length _ = n at htaken
    cases htaken with
    | blank hb =>
      simp only [isBlank, Bool.or_eq_true] at hb
      rcases hb with ((hb | hb) | hb) | hb <;> exact hcodes _ (by decide) _ hb
    | line hb => exact hcodes _ (by decide) _ hb
    | block hb => exact hcodes _ (by decide) _ hb

/-- The lexeme in a text that starts `d` bytes later. -/
def Lexeme.moved (d : ℕ) (x : Lexeme) : Lexeme := { x with start := d + x.start }

theorem scan_moved (d : ℕ) (s : Bytes) (skip i : ℕ) :
    scan s skip (d + i) = (scan s skip i).map (List.map (Lexeme.moved d)) := by
  induction s generalizing skip i with
  | nil =>
    cases skip <;> rfl
  | cons b rest ih =>
    cases skip with
    | succ skip => rw [scan, scan, Nat.add_assoc, ih]
    | zero =>
      rw [scan, scan]
      cases step b rest with
      | error e => rfl
      | ok r =>
        obtain ⟨o, n⟩ := r
        rw [ok_bind, ok_bind]
        dsimp only
        rw [Nat.add_assoc, ih]
        cases scan rest n (i + 1) with
        | error e => rfl
        | ok l => cases o <;> rfl

/-- The tokens of a text that is read from byte `i` on are those of the text. -/
theorem Lexes.tokens (h : Lexes s i l [] i') :
    ∃ l', scan s 0 0 = .ok l' ∧
      l'.map (fun x => (x.token, x.escaped)) = l.map fun x => (x.token, x.escaped) := by
  have hscan := h.scan_eq
  rw [show i = i + 0 from rfl, scan_moved] at hscan
  cases hs : scan s 0 0 with
  | error e =>
    rw [hs] at hscan
    cases hscan
  | ok l' =>
    rw [hs] at hscan
    simp only [scan, Except.map, List.append_nil, Except.ok.injEq] at hscan
    refine ⟨l', rfl, ?_⟩
    rw [← hscan, List.map_map]
    rfl

variable {t : Bytes}

theorem nextSpan_gap (h : Lexes s i [] s' i') (ht : Ends t) (d : ℕ) (start : Option ℕ) (lastEnd : ℕ) :
    nextSpan (s ++ t) 0 (d + i) start lastEnd = nextSpan (s' ++ t) 0 (d + i') start lastEnd := by
  generalize hl : ([] : List Lexeme) = l at h
  induction h with
  | refl => rfl
  | blank hstep _ ih =>
    rw [← ih hl, List.cons_append, nextSpan_blank (taken_of_step hstep) ht]
    simp only [Nat.add_assoc]
  | token => cases hl

/-- Where an operator ends that ends in a hyphen, if another hyphen stands there. -/
def glue (s : Bytes) (x : Lexeme) : Option ℕ :=
  (match x.token with
    | .hashMinus => some (x.start + 2)
    | .adjacent => some (x.start + 3)
    | _ => none).filter fun e => startsWith ['-'] (s.drop e)

theorem operators_hyphen : ∀ op ∈ operators, (op.2.2 ≠ some .hashMinus ∧ op.2.2 ≠ some .adjacent) ∧
    ∀ l ∈ op.2.1, (l.2 = .hashMinus → op.1 = '#' ∧ l.1 = ['-']) ∧
      (l.2 = .adjacent → op.1 = '-' ∧ l.1 = ['|', '-']) := by
  decide

/-- An operator that ends in a hyphen. -/
def isHyphenated (tok : Token) : Bool := tok == .hashMinus || tok == .adjacent

variable {n : ℕ} {tok : Token}

theorem finishNumber_token {e : ℕ} {frac : Option Bytes} {exp : Option ℤ}
    (h : finishNumber s e frac exp = .ok (tok, n)) : isHyphenated tok = false := by
  unfold finishNumber at h
  dsimp only at h
  split at h
  · cases h
  · split at h
    · simp only [bind_eq_ok, pure_eq_ok, Prod.mk.injEq] at h
      obtain ⟨m, -, rfl, -⟩ := h
      rfl
    · cases h
      rfl

theorem scanNumber_token (h : scanNumber s = .ok (tok, n)) :
    isHyphenated tok = false := by
  unfold scanNumber at h
  split at h
  · unfold scanRadix at h
    dsimp only at h
    split at h
    · split at h
      · cases h
      · simp only [bind_eq_ok, pure_eq_ok, Prod.mk.injEq] at h
        obtain ⟨m, -, rfl, -⟩ := h
        rfl
    · generalize (2 + if is (s.getD 2 0) '_' = true then 1 else 0) = failEnd at h
      split at h <;> cases h
  · unfold scanDecimal at h
    split at h
    · simp only [bind_eq_ok, pure_eq_ok, Prod.mk.injEq] at h
      obtain ⟨m, -, rfl, -⟩ := h
      rfl
    · obtain ⟨⟨e, exp⟩, -, h⟩ := bind_eq_ok.mp h
      exact finishNumber_token h

variable {rest : Bytes}

theorem scanParam_token (h : scanParam rest = .ok (tok, n)) :
    isHyphenated tok = false := by
  unfold scanParam at h
  dsimp only at h
  split at h
  · cases h
  · split at h
    · cases h
    · split at h
      · cases h
        rfl
      · cases h

variable {esc : Bool}

theorem quotedToken_token {q : UInt8} {buf : Bytes}
    (h : quotedToken q buf esc = .ok tok) : isHyphenated tok = false := by
  unfold quotedToken at h
  split at h
  · cases h
    rfl
  · split at h
    · cases h
    · split at h
      · cases h
      · cases h
        rfl

variable {b : UInt8}

/-- An operator that ends in a hyphen, from its bytes. -/
theorem hyphen_of_taken (h : Taken b rest (some (tok, esc)) n) (htok : isHyphenated tok = true) :
    tok = .hashMinus ∧ is b '#' = true ∧ startsWith ['-'] rest = true ∧ n = 1 ∨
      tok = .adjacent ∧ is b '-' = true ∧ startsWith ['|', '-'] rest = true ∧ n = 2 := by
  have hother {P : Prop} (hnot : isHyphenated tok = false) : P := by
    rw [htok] at hnot
    cases hnot
  cases h with
  | operator hop hb _ _ hgreedy =>
    obtain ⟨halone, hlonger⟩ := operators_hyphen _ hop
    simp only [isHyphenated, Bool.or_eq_true, beq_iff_eq] at htok
    rcases greedy_ok hgreedy with ⟨l, hl, hstart, rfl, rfl⟩ | ⟨hone, rfl⟩
    · rcases htok with htok | htok
      · obtain ⟨hfirst, hchars⟩ := (hlonger l hl).1 htok
        rw [hchars] at hstart ⊢
        exact .inl ⟨htok, hfirst ▸ hb, hstart, rfl⟩
      · obtain ⟨hfirst, hchars⟩ := (hlonger l hl).2 htok
        rw [hchars] at hstart ⊢
        exact .inr ⟨htok, hfirst ▸ hb, hstart, rfl⟩
    · rcases htok with rfl | rfl
      · exact absurd hone halone.1
      · exact absurd hone halone.2
  | quoted _ _ hquoted | escaped _ _ _ hquoted => exact hother (quotedToken_token hquoted)
  | number hnumber => exact hother (scanNumber_token hnumber)
  | dot => exact hother rfl
  | param _ hparam => exact hother (scanParam_token hparam)
  | word => exact hother rfl

variable {p u s₁ : Bytes}

/-- A hyphen stands after an operator that ends in one where its lexeme is glued. -/
theorem glue_eq (hs : s = u ++ b :: (p ++ s₁)) (h : Taken b (p ++ s₁) (some (tok, esc)) p.length) :
    glue s ⟨tok, u.length, esc⟩ =
      if isHyphenated tok && startsWith ['-'] s₁ then some (u.length + 1 + p.length) else none := by
  have hdrop : s.drop (u.length + 1 + p.length) = s₁ := by
    rw [hs, show u ++ b :: (p ++ s₁) = (u ++ b :: p) ++ s₁ by simp]
    refine List.drop_left' ?_
    rw [List.length_append, List.length_cons]
    omega
  cases htok : isHyphenated tok with
  | true =>
    rcases hyphen_of_taken h htok with ⟨rfl, -, -, hlen⟩ | ⟨rfl, -, -, hlen⟩
    · rw [hlen] at hdrop ⊢
      cases hminus : startsWith ['-'] s₁ <;> simp [glue, hdrop, hminus, Option.filter]
    · rw [hlen] at hdrop ⊢
      cases hminus : startsWith ['-'] s₁ <;> simp [glue, hdrop, hminus, Option.filter]
  | false =>
    cases tok <;> first | rfl | cases htok

/-- The splitter takes an unglued token as the lexer does. -/
theorem nextSpan_lexeme {whole : Bytes}
    (hwhole : whole = u ++ b :: (p ++ s₁)) (h : step b (p ++ s₁) = .ok (some (tok, esc), p.length))
    (hglue : glue whole ⟨tok, u.length, esc⟩ = none) (ht : Ends t) (d : ℕ) (start : Option ℕ)
    (lastEnd : ℕ) : nextSpan (b :: (p ++ s₁) ++ t) 0 (d + u.length) start lastEnd =
      nextSpan (s₁ ++ t) 0 (d + (u.length + 1 + p.length)) (some (start.getD (d + u.length)))
        (d + (u.length + 1 + p.length)) := by
  have htaken := taken_of_step h
  rw [glue_eq hwhole htaken] at hglue
  rw [List.cons_append, nextSpan_token htaken (fun htok => ?_) ht]
  · simp only [Nat.add_assoc]
  · have hyphenated : isHyphenated tok = true := by
      rcases htok with rfl | rfl <;> rfl
    simpa [hyphenated] using hglue

/-- The splitter goes through what the lexer reads: it stands where the lexer does, with a statement
from the first lexeme to the end of the last one. -/
theorem nextSpan_reads {whole : Bytes} {x : Lexeme}
    (h : Lexes s u.length (x :: l) s' i') (hwhole : whole = u ++ s)
    (hglue : ∀ y ∈ x :: l, glue whole y = none) :
    ∃ r j, Lexes s u.length (x :: l) r j ∧ Lexes r j [] s' i' ∧
      ∀ t, Ends t → ∀ d start lastEnd, nextSpan (s ++ t) 0 (d + u.length) start lastEnd =
        nextSpan (s' ++ t) 0 (d + i') (some (start.getD (d + x.start))) (d + j) := by
  induction l generalizing s u x with
  | nil =>
    obtain ⟨b, p, s₁, hlead, htoken, hrest⟩ := h.lead
    obtain ⟨v, rfl, hv⟩ := hlead.append
    rw [← List.length_append] at hv
    have hfirst : glue whole ⟨x.token, (u ++ v).length, x.escaped⟩ = none := by
      rw [← hv]
      exact hglue x List.mem_cons_self
    refine ⟨s₁, _, hlead.trans (.token htoken (.refl _ _)), hrest, fun t ht d start lastEnd => ?_⟩
    rw [nextSpan_gap hlead ht, hv]
    rw [nextSpan_lexeme (by simp [hwhole]) htoken hfirst ht, ← hv]
    exact nextSpan_gap hrest ht _ _ _
  | cons y l ih =>
    obtain ⟨b, p, s₁, hlead, htoken, hrest⟩ := h.lead
    obtain ⟨v, rfl, hv⟩ := hlead.append
    rw [← List.length_append] at hv
    have hfirst : glue whole ⟨x.token, (u ++ v).length, x.escaped⟩ = none := by
      rw [← hv]
      exact hglue x List.mem_cons_self
    have hnext : x.start + 1 + p.length = (u ++ v ++ b :: p).length := by
      have hlen : (u ++ v ++ b :: p).length = (u ++ v).length + (b :: p).length := List.length_append
      rw [hlen, hv, List.length_cons]
      omega
    rw [hnext] at hrest
    obtain ⟨r, j, hr, hj, hspan⟩ := ih hrest (by simp [hwhole])
      (fun z hz => hglue z (List.mem_cons_of_mem _ hz))
    rw [← hnext] at hr
    refine ⟨r, j, hlead.trans (.token htoken hr), hj, fun t ht d start lastEnd => ?_⟩
    rw [nextSpan_gap hlead ht, hv]
    rw [nextSpan_lexeme (by simp [hwhole]) htoken hfirst ht, ← hv, hnext]
    exact hspan t ht d _ _

/-- The splitter takes such an operator without its last hyphen, and the lexer takes no text that
ends there. -/
theorem cut_short (h : Taken b (p ++ rest) (some (tok, esc)) p.length) (htok : isHyphenated tok = true) :
    ∃ q, b :: p = q ++ [45] ∧ q ≠ [] ∧ (∀ t, PlainRun q (45 :: t)) ∧
      ∀ i, ∃ err, scan q 0 i = .error err := by
  have hbyte {b c : UInt8} (hb : b.toNat = c.toNat) : b = c := UInt8.toNat_inj.mp hb
  rcases hyphen_of_taken h htok with ⟨-, hb, hstart, hlen⟩ | ⟨-, hb, hstart, hlen⟩
  · obtain ⟨c, rfl⟩ := List.length_eq_one_iff.mp hlen
    simp only [List.singleton_append, startsWith, Bool.and_true] at hstart
    obtain rfl : b = 35 := hbyte (is_iff.mp hb)
    obtain rfl : c = 45 := hbyte (is_iff.mp hstart)
    refine ⟨[35], rfl, List.cons_ne_nil _ _, fun t => ⟨chunk_plain (by decide), trivial⟩, fun i => ?_⟩
    have hstep : step 35 [] = .error (unexpected 35) := rfl
    exact ⟨unexpected 35, by rw [scan, hstep]; rfl⟩
  · obtain ⟨c, c', rfl⟩ := List.length_eq_two.mp hlen
    simp only [List.cons_append, startsWith, Bool.and_true, Bool.and_eq_true] at hstart
    obtain rfl : b = 45 := hbyte (is_iff.mp hb)
    obtain rfl : c = 124 := hbyte (is_iff.mp hstart.1)
    obtain rfl : c' = 45 := hbyte (is_iff.mp hstart.2)
    refine ⟨[45, 124], rfl, List.cons_ne_nil _ _, fun t => ⟨chunk_minus (by decide) rfl,
      chunk_plain (by decide), trivial⟩, fun i => ?_⟩
    have hminus : step 45 [124] = .ok (some (.minus, false), 0) := rfl
    have hbar : step 124 [] = .error (unexpected 124) := rfl
    exact ⟨unexpected 124, by rw [scan, hminus, ok_bind]; dsimp only; rw [scan, hbar]; rfl⟩

/-- The splitter goes from there to the end of the line. -/
theorem nextSpan_cut_short {q : Bytes} (hq : b :: p = q ++ [45]) (hne : q ≠ [])
    (hplain : ∀ t, PlainRun q (45 :: t)) (hstart : startsWith ['-'] rest = true)
    (hline : ∀ c ∈ rest, isEol c = false) (ht : Ends t) (i : ℕ) (start : Option ℕ) (lastEnd : ℕ) :
    nextSpan (b :: (p ++ rest) ++ t) 0 i start lastEnd =
      nextSpan t 0 (i + (b :: (p ++ rest)).length) (some (start.getD i)) (i + q.length) := by
  have hsplit : b :: (p ++ rest) ++ t = q ++ 45 :: (rest ++ t) := by
    rw [← List.cons_append, hq]
    simp
  cases rest with
  | nil => cases hstart
  | cons c rest =>
    have hlen : (b :: (p ++ c :: rest)).length = q.length + 1 + (c :: rest).length := by
      rw [← List.cons_append, hq, List.length_append, List.length_append, List.length_singleton]
    have htake : (rest ++ t).takeWhile (fun b => !isEol b) = rest := by
      rw [takeWhile_eol _ ht, List.takeWhile_eq_self_iff]
      intro c hc
      simp [hline c (List.mem_cons_of_mem _ hc)]
    have hchunk : chunk 45 (c :: rest ++ t) = (.blank, 1 + rest.length) := by
      have hc := startsWith_append (t := t) hstart
      simp only [List.cons_append] at hc ⊢
      rw [chunk, if_neg (by decide), if_neg (by decide), if_pos (by rw [hc]; rfl), List.tail_cons, htake]
    rw [hsplit, nextSpan_plain (hplain _) hne, hlen, nextSpan, hchunk]
    dsimp only
    have hskip := nextSpan_skip (c :: rest) t (i + q.length + 1) (some (start.getD i)) (i + q.length)
    rw [List.length_cons, Nat.add_comm rest.length 1] at hskip
    rw [hskip]
    simp only [List.length_cons, Nat.add_assoc, Nat.add_comm]

end Jed.Sql
