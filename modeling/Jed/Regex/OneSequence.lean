import Jed.Lib.MatchSequence
import Jed.Regex.Iterate
import Jed.Regex.Spans

/-!
# One sequence of matches

Each loop over the matches of a compiled program walks the same sequence, whatever its bookkeeping.
-/

namespace Jed.Regex

open MatchSequence

namespace Program

variable (prog : Program) (input : List Char)

/-- What a search finds. -/
def found (pos : ℕ) : Option Slots := (prog.search input pos).getD none

/-- The matches of a program from a position on. -/
def matchesFrom (start : ℕ) : List Slots :=
  walkFrom (prog.found input) span input.length (input.length + 1) start

end Program

theorem nextPos_eq (m : ℕ × ℕ) : Program.nextPos m = advance m := rfl

section Loops

variable {prog : Program} {input orig : List Char}

/-- Every search from a position of the input gives an answer. -/
def Answers (prog : Program) (input : List Char) : Prop :=
  ∀ pos, pos ≤ input.length → prog.search input pos = some (prog.found input pos)

/-- The matches from `pos` on. -/
abbrev Matches (prog : Program) (input : List Char) (pos : ℕ) (ms : List Slots) : Prop :=
  Walk (prog.found input) Program.span input.length pos ms

theorem SpanOk.span {start len : ℕ} {l : Slots} (h : SpanOk prog start len l) :
    start ≤ (Program.span l).1 ∧ (Program.span l).1 ≤ (Program.span l).2 ∧
      (Program.span l).2 ≤ len := by
  obtain ⟨-, s, e, hs, he, hrest⟩ := h
  simpa [Program.span, Program.slot, hs, he] using hrest

variable {head body : List Inst}

theorem answers_of_wellFormed (hwf : prog.WellFormed head body) :
    Answers prog input := by
  intro pos hpos
  obtain ⟨r, hr, -⟩ := search_good hwf hpos
  rw [Program.found, hr]
  rfl

variable {pos : ℕ}

theorem found_ok (hwf : prog.WellFormed head body) {l : Slots}
    (hpos : pos ≤ input.length) (h : prog.found input pos = some l) :
    SpanOk prog pos input.length l := by
  obtain ⟨r, hr, hok⟩ := search_good hwf hpos
  rw [Program.found, hr] at h
  exact hok l h

theorem finds_of_wellFormed (hwf : prog.WellFormed head body) :
    Finds (prog.found input) Program.span input.length :=
  fun _ _ hpos h => (found_ok hwf hpos h).span

variable {ms : List Slots}

/-- `replace_matches` collects the sequence. -/
theorem replaceLoop_eq (hans : Answers prog input)
    (h : Matches prog input pos ms) (hpos : pos ≤ input.length) (fuel : ℕ)
    (hfuel : ms.length < fuel) (found : List Slots) :
    prog.replaceLoop input true fuel pos found = some (found ++ ms) := by
  induction h generalizing fuel found with
  | past hlt => omega
  | none _ hfind =>
    obtain ⟨fuel, rfl⟩ : ∃ f, fuel = f + 1 := ⟨fuel - 1, by omega⟩
    rw [Program.replaceLoop, hans _ hpos, hfind, List.append_nil]
  | @more pos m ms _ hfind hrest ih =>
    obtain ⟨fuel, rfl⟩ : ∃ f, fuel = f + 1 := ⟨fuel - 1, by omega⟩
    rw [List.length_cons] at hfuel
    rw [Program.replaceLoop, hans _ hpos, hfind]
    simp only [Bool.not_true, Bool.false_eq_true, if_false]
    by_cases hgt : Program.nextPos (Program.span m) > input.length
    · rw [if_pos hgt]
      rw [nextPos_eq] at hgt
      cases hrest with
      | past => rfl
      | none hle => omega
      | more hle => omega
    · rw [if_neg hgt]
      rw [nextPos_eq] at hgt ⊢
      rw [ih (by omega) fuel (by omega), List.append_assoc, List.singleton_append]

/-- `replace_matches` for the first match only. -/
theorem replaceLoop_first (hans : Answers prog input)
    (h : Matches prog input pos ms) (hpos : pos ≤ input.length) (fuel : ℕ) :
    prog.replaceLoop input false (fuel + 1) pos [] = some (ms.take 1) := by
  cases h with
  | past hlt => omega
  | none _ hfind =>
    rw [Program.replaceLoop, hans _ hpos, hfind]
    rfl
  | more _ hfind _ =>
    rw [Program.replaceLoop, hans _ hpos, hfind]
    rfl

/-- `regexp_count` counts the sequence. -/
theorem countLoop_eq (hans : Answers prog input)
    (h : Matches prog input pos ms) (fuel : ℕ) (hfuel : ms.length < fuel) (count : ℤ) :
    prog.countLoop input fuel pos count = some (count + ms.length) := by
  induction h generalizing fuel count with
  | past hlt =>
    obtain ⟨fuel, rfl⟩ : ∃ f, fuel = f + 1 := ⟨fuel - 1, by omega⟩
    rw [Program.countLoop, if_neg (Nat.not_le.2 hlt)]
    simp
  | none hpos hfind =>
    obtain ⟨fuel, rfl⟩ : ∃ f, fuel = f + 1 := ⟨fuel - 1, by omega⟩
    rw [Program.countLoop, if_pos hpos, hans _ hpos, hfind]
    simp
  | more hpos hfind _ ih =>
    obtain ⟨fuel, rfl⟩ : ∃ f, fuel = f + 1 := ⟨fuel - 1, by omega⟩
    rw [List.length_cons] at hfuel ⊢
    rw [Program.countLoop, if_pos hpos, hans _ hpos, hfind]
    dsimp only
    rw [nextPos_eq, ih fuel (by omega)]
    push_cast
    congr 1
    omega

/-- The `n`-th of a list, from 1. -/
def nth {α : Type} (n : ℤ) (l : List α) : Option α := if 1 ≤ n then l[(n - 1).toNat]? else none

theorem nth_nil {α : Type} (n : ℤ) : nth n ([] : List α) = none := by
  rw [nth]
  split <;> rfl

theorem nth_cons {α : Type} {n : ℤ} (a : α) (l : List α) (hn : n ≠ 1) :
    nth n (a :: l) = nth (n - 1) l := by
  rw [nth, nth]
  by_cases h : 1 ≤ n
  · obtain ⟨k, hk⟩ : ∃ k : ℕ, n = k + 2 := ⟨(n - 2).toNat, by omega⟩
    subst hk
    rw [if_pos (by omega), if_pos (by omega),
      show ((k : ℤ) + 2 - 1).toNat = k + 1 by omega, show ((k : ℤ) + 2 - 1 - 1).toNat = k by omega,
      List.getElem?_cons_succ]
  · rw [if_neg h, if_neg (by omega)]

/-- `nth_match` takes from the sequence. -/
theorem nthLoop_eq (hans : Answers prog input)
    (h : Matches prog input pos ms) (n : ℤ) (fuel : ℕ) (hfuel : ms.length < fuel) (count : ℤ) :
    prog.nthLoop input n fuel pos count = some (nth (n - count) ms) := by
  induction h generalizing fuel count with
  | past hlt =>
    obtain ⟨fuel, rfl⟩ : ∃ f, fuel = f + 1 := ⟨fuel - 1, by omega⟩
    rw [Program.nthLoop, if_neg (Nat.not_le.2 hlt), nth_nil]
  | none hpos hfind =>
    obtain ⟨fuel, rfl⟩ : ∃ f, fuel = f + 1 := ⟨fuel - 1, by omega⟩
    rw [Program.nthLoop, if_pos hpos, hans _ hpos, hfind, nth_nil]
  | more hpos hfind _ ih =>
    obtain ⟨fuel, rfl⟩ : ∃ f, fuel = f + 1 := ⟨fuel - 1, by omega⟩
    rw [List.length_cons] at hfuel
    rw [Program.nthLoop, if_pos hpos, hans _ hpos, hfind]
    dsimp only
    rw [nextPos_eq]
    by_cases hn : count + 1 = n
    · rw [if_pos hn, show n - count = 1 by omega]
      rfl
    · rw [if_neg hn, ih fuel (by omega), nth_cons _ _ (by omega),
        show n - (count + 1) = n - count - 1 by omega]

/-- The matches that split: not degenerate after one that ends at `prevEnd`. -/
def splitting (len : ℕ) : ℕ → List (ℕ × ℕ) → List (ℕ × ℕ)
  | _, [] => []
  | prevEnd, m :: ms =>
    if m.1 < len ∧ m.2 > prevEnd then m :: splitting len m.2 ms else splitting len m.2 ms

/-- Pieces with separators between them. -/
def interleave {α : Type} : List (List α) → List (List α) → List α
  | p :: ps, q :: qs => p ++ (q ++ interleave ps qs)
  | ps, [] => ps.flatten
  | [], qs => qs.flatten

/-- The text of a match. -/
def matchText (orig : List Char) (m : ℕ × ℕ) : List Char := (orig.drop m.1).take (m.2 - m.1)

variable {a b : ℕ}

theorem take_append_drop {α : Type} (l : List α) (h : a ≤ b) :
    (l.drop a).take (b - a) ++ l.drop b = l.drop a := by
  conv_rhs => rw [← List.take_append_drop (b - a) (l.drop a)]
  rw [List.drop_drop, Nat.add_sub_cancel' h]

theorem textSlice_of_le (h : a ≤ b) (hb : b ≤ orig.length) :
    textSlice orig a b = some ((orig.drop a).take (b - a)) := if_pos ⟨h, hb⟩

theorem textSlice_end (h : a ≤ orig.length) :
    textSlice orig a orig.length = some (orig.drop a) := by
  rw [textSlice_of_le h (Nat.le_refl _), ← List.length_drop, List.take_length]

/-- `split_pieces` from a position on: one piece more than there are splitting matches, and the pieces with
    these between them are the text that is left. -/
theorem splitLoop_eq (hans : Answers prog input) (hfinds : Finds (prog.found input) Program.span input.length)
    (hlen : orig.length = input.length)
    (h : Matches prog input pos ms) (fuel : ℕ) (hfuel : ms.length < fuel) (prevEnd pieceStart : ℕ)
    (pieces : List (List Char)) (hpiece : pieceStart ≤ prevEnd) (hprev : prevEnd ≤ pos)
    (hend : prevEnd ≤ input.length) :
    ∃ new, prog.splitLoop input orig fuel pos prevEnd pieceStart pieces = some (pieces ++ new) ∧
      new.length = (splitting input.length prevEnd (ms.map Program.span)).length + 1 ∧
      interleave new ((splitting input.length prevEnd (ms.map Program.span)).map (matchText orig)) =
        orig.drop pieceStart := by
  have hlast : textSlice orig pieceStart input.length = some (orig.drop pieceStart) := by
    rw [← hlen]
    exact textSlice_end (by omega)
  induction h generalizing fuel prevEnd pieceStart pieces with
  | past hlt =>
    obtain ⟨fuel, rfl⟩ : ∃ f, fuel = f + 1 := ⟨fuel - 1, by omega⟩
    refine ⟨[orig.drop pieceStart], ?_, rfl, ?_⟩
    · rw [Program.splitLoop, hlast, if_neg (Nat.not_le.2 hlt)]
      rfl
    · simp [splitting, interleave]
  | none hpos hfind =>
    obtain ⟨fuel, rfl⟩ : ∃ f, fuel = f + 1 := ⟨fuel - 1, by omega⟩
    refine ⟨[orig.drop pieceStart], ?_, rfl, ?_⟩
    · rw [Program.splitLoop, hlast, if_pos hpos, hans _ hpos, hfind]
      rfl
    · simp [splitting, interleave]
  | @more pos m ms hpos hfind _ ih =>
    obtain ⟨fuel, rfl⟩ : ∃ f, fuel = f + 1 := ⟨fuel - 1, by omega⟩
    rw [List.length_cons] at hfuel
    obtain ⟨hs, hse, he⟩ := hfinds _ _ hpos hfind
    have hnext : (Program.span m).2 ≤ advance (Program.span m) := le_advance _
    rw [Program.splitLoop, hans _ hpos, hfind, List.map_cons, splitting]
    dsimp only
    rw [if_pos hpos]
    by_cases hsplit : (Program.span m).1 < input.length ∧ (Program.span m).2 > prevEnd
    · rw [if_pos hsplit, if_pos hsplit, textSlice_of_le (by omega) (by omega)]
      obtain ⟨new, hnew, hcount, hjoin⟩ := ih fuel (by omega) _ _
        (pieces ++ [(orig.drop pieceStart).take ((Program.span m).1 - pieceStart)])
        (Nat.le_refl _) hnext he (by
          rw [← hlen]
          exact textSlice_end (by omega))
      refine ⟨(orig.drop pieceStart).take ((Program.span m).1 - pieceStart) :: new, ?_, ?_, ?_⟩
      · rw [← List.singleton_append, ← List.append_assoc]
        exact hnew
      · rw [List.length_cons, List.length_cons, hcount]
      · rw [List.map_cons, interleave, hjoin, matchText, take_append_drop orig hse,
          take_append_drop orig (by omega)]
    · rw [if_neg hsplit, if_neg hsplit]
      exact ih fuel (by omega) _ _ pieces (by omega) hnext he hlast

theorem byteLen_append (s t : List Char) : byteLen (s ++ t) = byteLen s + byteLen t := by
  induction s with
  | nil => exact (Int.zero_add _).symm
  | cons c s ih => rw [List.cons_append, byteLen, byteLen, ih, Int.add_assoc]

theorem addSizes_eq (size : ℤ) (out : List Char) (h : size = byteLen out) (ps : List Piece) :
    Program.addSizes orig size ps = (Program.addTexts orig out ps).map byteLen := by
  induction ps generalizing size out with
  | nil => rw [Program.addSizes, Program.addTexts, h]; rfl
  | cons p ps ih =>
    have hpiece : Program.pieceSize orig p = (Program.pieceText orig p).map byteLen := by
      cases p with
      | char c => exact congrArg some (Int.add_zero _).symm
      | span a b => rfl
    rw [Program.addSizes, Program.addTexts, hpiece]
    cases Program.pieceText orig p with
    | none => rfl
    | some s =>
      refine ih _ _ ?_
      rw [h, byteLen_append]

theorem replaceSize_eq (repl : List Char) (found : List Slots) :
    prog.replaceSize orig repl found = (prog.replaceBuild orig repl found).map byteLen :=
  addSizes_eq 0 [] rfl _

theorem addTexts_append (out : List Char) (ps qs : List Piece) :
    Program.addTexts orig out (ps ++ qs) =
      (Program.addTexts orig out ps).bind fun out => Program.addTexts orig out qs := by
  induction ps generalizing out with
  | nil => rfl
  | cons p ps ih =>
    rw [List.cons_append, Program.addTexts, Program.addTexts]
    cases Program.pieceText orig p with
    | none => rfl
    | some s => exact ih _

/-- The template `\&`. -/
def wholeMatch : List Char := ['\\', '&']

theorem forEachPiece_wholeMatch (m : Slots) :
    prog.forEachPiece m wholeMatch = Program.groupPiece m 0 := by
  have hdigit : groupDigit '&' = none := by decide
  rw [wholeMatch, Program.forEachPiece, if_pos rfl, hdigit]
  simp [Program.forEachPiece]

/-- Replacing each match by itself gives the text back. -/
theorem replace_wholeMatch (hwf : prog.WellFormed head body) (hlen : orig.length = input.length)
    (h : Matches prog input pos ms) (hpos : pos ≤ input.length + 1) (out : List Char) :
    Program.addTexts orig out (prog.forEachOutput orig wholeMatch pos ms) =
      some (out ++ orig.drop pos) := by
  induction h generalizing out with
  | past hlt =>
    rw [Program.forEachOutput, if_neg (by omega), List.drop_eq_nil_of_le (by omega),
      List.append_nil]
    rfl
  | none hle _ =>
    rw [Program.forEachOutput, if_pos (by omega), Program.addTexts, Program.pieceText,
      textSlice_end (by omega)]
    rfl
  | @more pos m ms hle hfind _ ih =>
    have hok := found_ok hwf hle hfind
    obtain ⟨hs, hse, he⟩ := hok.span
    have hgroup : Program.groupPiece m 0 = [.span (Program.span m).1 (Program.span m).2] := by
      obtain ⟨-, s, e, hs, he, -⟩ := hok
      simp [Program.groupPiece, Program.span, Program.slot, hs, he]
    have hnext := advance_le (Program.span m)
    rw [Program.forEachOutput, forEachPiece_wholeMatch, hgroup]
    rw [List.singleton_append, Program.addTexts, Program.pieceText,
      textSlice_of_le hs (by omega)]
    dsimp only
    rw [Program.addTexts, Program.pieceText, textSlice_of_le hse (by omega)]
    dsimp only
    have hjoin : ∀ rest, out ++ (orig.drop pos).take ((Program.span m).1 - pos) ++
        (orig.drop (Program.span m).1).take ((Program.span m).2 - (Program.span m).1) ++ rest =
        out ++ ((orig.drop pos).take ((Program.span m).1 - pos) ++
          ((orig.drop (Program.span m).1).take ((Program.span m).2 - (Program.span m).1) ++
            rest)) := fun rest => by simp only [List.append_assoc]
    rw [advance] at ih hnext
    by_cases hgt : (Program.span m).2 > (Program.span m).1
    · rw [if_pos hgt] at ih ⊢
      rw [ih (by omega), hjoin, take_append_drop orig hse, take_append_drop orig hs]
    · rw [if_neg hgt] at ih ⊢
      rw [addTexts_append]
      -- the character after an empty match is copied
      have hafter : Program.addTexts orig (out ++ (orig.drop pos).take ((Program.span m).1 - pos) ++
          (orig.drop (Program.span m).1).take ((Program.span m).2 - (Program.span m).1))
            (orig[(Program.span m).2]?.map Piece.char).toList =
          some (out ++ (orig.drop pos).take ((Program.span m).1 - pos) ++
            (orig.drop (Program.span m).1).take ((Program.span m).2 - (Program.span m).1) ++
              orig[(Program.span m).2]?.toList) := by
        cases orig[(Program.span m).2]? with
        | none => simp [Program.addTexts]
        | some c => rfl
      rw [hafter]
      dsimp only [Option.bind_some]
      rw [ih (by omega), List.append_assoc, hjoin]
      have hdrop : orig[(Program.span m).2]?.toList ++ orig.drop ((Program.span m).2 + 1) =
          orig.drop (Program.span m).2 := by
        cases hc : orig[(Program.span m).2]? with
        | none =>
          rw [List.getElem?_eq_none_iff] at hc
          rw [List.drop_eq_nil_of_le hc, List.drop_eq_nil_of_le (Nat.le_succ_of_le hc)]
          rfl
        | some c =>
          obtain ⟨hlt, rfl⟩ := List.getElem?_eq_some_iff.1 hc
          exact (List.drop_eq_getElem_cons hlt).symm
      rw [hdrop, take_append_drop orig hse, take_append_drop orig hs]

/-- The iteration functions of a program over a subject, searched as `input` and cut from `orig`, all walk
    the matches from a position on. -/
structure OneSequence (prog : Program) (input orig : List Char) : Prop where
  /-- Each match is the one found from the end of the last, or past it when that one is empty. -/
  next : ∀ start, start ≤ input.length → ∃ r, prog.search input start = some r ∧
    prog.matchesFrom input start = match r with
      | none => []
      | some m => m :: prog.matchesFrom input (Program.nextPos (Program.span m))
  ended : ∀ start, input.length < start → prog.matchesFrom input start = []
  ascending : ∀ start, (prog.matchesFrom input start).Pairwise fun a b =>
    (Program.span a).2 ≤ (Program.span b).1 ∧ (Program.span a).1 < (Program.span b).1
  bounds : ∀ start, ∀ m ∈ prog.matchesFrom input start,
    start ≤ (Program.span m).1 ∧ (Program.span m).1 ≤ (Program.span m).2 ∧
      (Program.span m).2 ≤ input.length
  /-- A match is whole characters of the text, with whole characters around it. -/
  whole : ∀ start, ∀ m ∈ prog.matchesFrom input start,
    orig.take (Program.span m).1 ++
      (matchText orig (Program.span m) ++ orig.drop (Program.span m).2) = orig
  replaceAll : prog.replaceMatches input true = some (prog.matchesFrom input 0)
  replaceFirst : prog.replaceMatches input false = some ((prog.matchesFrom input 0).take 1)
  count : ∀ start, prog.regexpCount input start = some ((prog.matchesFrom input start).length : ℤ)
  nth : ∀ start n, prog.nthMatch input start n = some (nth n (prog.matchesFrom input start))
  replaceSelf : prog.replaceBuild orig wholeMatch (prog.matchesFrom input 0) = some orig
  split : ∃ pieces, prog.splitPieces input orig = some pieces ∧
    pieces.length = (splitting input.length 0
      ((prog.matchesFrom input 0).map Program.span)).length + 1 ∧
    interleave pieces ((splitting input.length 0
      ((prog.matchesFrom input 0).map Program.span)).map (matchText orig)) = orig
  size : ∀ repl found, prog.replaceSize orig repl found =
    (prog.replaceBuild orig repl found).map byteLen

theorem matches_of_wellFormed (hwf : prog.WellFormed head body)
    (start : ℕ) : Matches prog input start (prog.matchesFrom input start) :=
  walk_walkFrom (finds_of_wellFormed hwf) _ _ (Nat.le_add_left _ _)

/-- All regex iteration functions of a compiled program walk one sequence of matches. -/
theorem iterations_agree {pattern : List Char} {mode : Mode} {w : Wrapper}
    (h : (compileWrapped pattern mode w).1 = .ok prog) (hlen : orig.length = input.length) :
    OneSequence prog input orig := by
  obtain ⟨body, hwf⟩ := compileWrapped_wellFormed h
  have hans : Answers prog input := answers_of_wellFormed hwf
  have hfinds : Finds (prog.found input) Program.span input.length := finds_of_wellFormed hwf
  have hwalk : ∀ start, Matches prog input start (prog.matchesFrom input start) :=
    matches_of_wellFormed hwf
  have hcount : ∀ start, (prog.matchesFrom input start).length < input.length + 2 := fun start => by
    have := (hwalk start).length_le hfinds
    omega
  refine ⟨fun start hstart => ⟨prog.found input start, hans start hstart, ?_⟩,
    fun start hstart => (hwalk start).unique (.past hstart),
    fun start => (hwalk start).ascending hfinds, fun start m => (hwalk start).bounds hfinds,
    fun start m hm => ?_, ?_, ?_, fun start => ?_, fun start n => ?_, ?_, ?_, replaceSize_eq⟩
  · cases hm : prog.found input start with
    | none => exact (hwalk start).unique (.none hstart hm)
    | some m => exact (hwalk start).unique (.more hstart hm (hwalk _))
  · obtain ⟨-, hse, -⟩ := (hwalk start).bounds hfinds hm
    rw [matchText, take_append_drop orig hse, List.take_append_drop]
  · rw [Program.replaceMatches, replaceLoop_eq hans (hwalk 0) (Nat.zero_le _) _ (hcount 0),
      List.nil_append]
  · exact replaceLoop_first hans (hwalk 0) (Nat.zero_le _) _
  · rw [Program.regexpCount, countLoop_eq hans (hwalk start) _ (hcount start), Int.zero_add]
  · rw [Program.nthMatch, nthLoop_eq hans (hwalk start) n _ (hcount start), Int.sub_zero]
  · rw [Program.replaceBuild, replace_wholeMatch hwf hlen (hwalk 0) (Nat.zero_le _)]
    rfl
  · have hsplit := splitLoop_eq hans hfinds hlen (hwalk 0) _ (hcount 0) 0 0 [] (Nat.le_refl _)
      (Nat.le_refl _) (Nat.zero_le _)
    simpa only [Program.splitPieces, List.nil_append, List.drop_zero] using hsplit

/-- `b*` over `abb`: empty matches before and after the one that is not. -/
theorem iterations_agree_star : OneSequence ⟨[.split 3 1, .anyChar, .jmp 0, .save 0, .split 5 7,
    .char 'b', .jmp 4, .save 1, .match_], [], 0⟩ ['a', 'b', 'b'] ['a', 'B', 'b'] := by
  have hparts : (compileWrapped ['b', '*'] .plain .search).1.toOption.map
      (fun p => (p.insts, p.classes, p.ngroups)) =
        some ([.split 3 1, .anyChar, .jmp 0, .save 0, .split 5 7, .char 'b', .jmp 4, .save 1, .match_],
          [], 0) := by
    decide +kernel
  obtain ⟨prog, hprog⟩ : ∃ prog, (compileWrapped ['b', '*'] .plain .search).1 = .ok prog := by
    cases hcompiled : (compileWrapped ['b', '*'] .plain .search).1 with
    | error e =>
      rw [hcompiled] at hparts
      cases hparts
    | ok prog => exact ⟨prog, rfl⟩
  rw [hprog] at hparts
  obtain ⟨insts, classes, ngroups⟩ := prog
  cases hparts
  exact iterations_agree hprog rfl

end Loops

end Jed.Regex
