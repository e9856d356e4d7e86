import Mathlib.Data.Int.Notation
import Mathlib.Data.Nat.Notation
import Mathlib.Tactic.Common

/-!
# Regex programs

The bytecode of the regex engine (`regex.rs`): instructions, character classes, the compiled program
and the errors of a compilation.
-/

namespace Jed.Regex

/-- `MAX_REGEX_PROGRAM`: the largest program, in instructions. -/
def maxRegexProgram : ℕ := 32768

/-- `MAX_CP`. -/
def maxCp : ℕ := 0x10FFFF

/-- `Inst`; jump targets are absolute instruction indices. -/
inductive Inst where
  | char (c : Char)
  | any
  | anyChar
  | class_ (k : ℕ)
  | split (x y : ℕ)
  | jmp (x : ℕ)
  | save (n : ℕ)
  | assertStart
  | assertEnd
  | assertLineStart
  | assertLineEnd
  | gate
  | match_
  deriving DecidableEq, Repr

/-- `CharClass`. -/
structure CharClass where
  negated : Bool
  ranges : List (ℕ × ℕ)
  deriving DecidableEq, Repr

/-- `CharClass::admits`. -/
def CharClass.admits (cc : CharClass) (c : Char) : Bool :=
  (cc.ranges.any fun r => decide (r.1 ≤ c.toNat) && decide (c.toNat ≤ r.2)) != cc.negated

/-- `Program`: the instructions, the class table and the number of capturing groups. -/
structure Program where
  insts : List Inst
  classes : List CharClass
  ngroups : ℕ

/-- How a compilation fails: `invalid` is 2201B, `tooComplex` 54001. `stuck` stands for an `expect` that
    fails, or a loop of the model that runs out of fuel. -/
inductive RegexError where
  | invalid (detail : String)
  | tooComplex
  | stuck
  deriving DecidableEq, Repr

/-- `Mode`. -/
structure Mode where
  nlStop : Bool
  dotAll : Bool
  nlAnchor : Bool

/-- `Mode::default`. -/
def Mode.plain : Mode := ⟨false, false, false⟩

end Jed.Regex

/-!
## The Pike VM

`Program::search` of `regex.rs`: threads stepped over the input in lockstep, in priority order. An index
out of range gives `none`. The dedup set is the list of the instructions visited at the position.
-/

namespace Jed.Regex

/-- Capture slots, -1 for unset. -/
abbrev Slots : Type := List ℤ

/-- `Thread`. -/
structure Thread where
  pc : ℕ
  caps : Option Slots

/-- The consuming instructions and `Match`: the ones that `add_thread` parks. -/
def Inst.parks : Inst → Bool
  | .char _ | .any | .anyChar | .class_ _ | .match_ => true
  | .split .. | .jmp _ | .save _ | .assertStart | .assertEnd | .assertLineStart | .assertLineEnd
  | .gate => false

namespace Program

variable (prog : Program) (input : List Char) (gate : Option (List Bool))

/-- `CapRep::with`: the slots with slot `i` set. -/
def withSlot (caps : Option Slots) (i : ℕ) (v : ℤ) : Option Slots :=
  let slots := caps.getD (List.replicate (2 * (prog.ngroups + 1)) (-1))
  if i < slots.length then some (slots.set i v) else none

/-- The threads that `add_thread` pushes for an instruction, the top of the stack first. -/
def follow (sp : ℕ) (t : Thread) : Inst → Option (List Thread)
  | .jmp x => some [⟨x, t.caps⟩]
  | .split x y => some [⟨x, t.caps⟩, ⟨y, t.caps⟩]
  | .save n => (prog.withSlot t.caps n sp).map fun caps => [⟨t.pc + 1, some caps⟩]
  | .assertStart => some (if sp = 0 then [⟨t.pc + 1, t.caps⟩] else [])
  | .assertEnd => some (if sp = input.length then [⟨t.pc + 1, t.caps⟩] else [])
  | .assertLineStart =>
    if sp = 0 then some [⟨t.pc + 1, t.caps⟩]
    else input[sp - 1]?.map fun c => if c = '\n' then [⟨t.pc + 1, t.caps⟩] else []
  | .assertLineEnd =>
    if sp = input.length then some [⟨t.pc + 1, t.caps⟩]
    else input[sp]?.map fun c => if c = '\n' then [⟨t.pc + 1, t.caps⟩] else []
  | .gate =>
    match gate with
    | none => some []
    | some g => g[sp]?.map fun open_ => if open_ then [⟨t.pc + 1, t.caps⟩] else []
  | .char _ | .any | .anyChar | .class_ _ | .match_ => some []

/-- The loop of `add_thread` over its stack. -/
def addLoop (sp : ℕ) : ℕ → List Thread → List ℕ → List Thread → Option (List ℕ × List Thread)
  | _, [], seen, list => some (seen, list)
  | 0, _ :: _, _, _ => none
  | fuel + 1, t :: stack, seen, list =>
    if t.pc ∈ seen then addLoop sp fuel stack seen list
    else
      match prog.insts[t.pc]? with
      | none => none
      | some inst =>
        if inst.parks then addLoop sp fuel stack (t.pc :: seen) (list ++ [t])
        else
          match prog.follow input gate sp t inst with
          | none => none
          | some next => addLoop sp fuel (next ++ stack) (t.pc :: seen) list

/-- `Program::add_thread`. -/
def addThread (sp : ℕ) (t : Thread) (seen : List ℕ) (list : List Thread) :
    Option (List ℕ × List Thread) :=
  prog.addLoop input gate sp (2 * prog.insts.length + 1) [t] seen list

/-- Whether a parked thread consumes the character at `sp`. -/
def advances (sp : ℕ) : Inst → Option Bool
  | .char c => some (decide (input[sp]? = some c))
  | .any => some (input[sp]?.any fun c => c ≠ '\n')
  | .anyChar => some (decide (sp < input.length))
  | .class_ k =>
    match input[sp]? with
    | none => some false
    | some c => prog.classes[k]?.map fun cc => cc.admits c
  | .split .. | .jmp _ | .save _ | .assertStart | .assertEnd | .assertLineStart | .assertLineEnd
  | .gate | .match_ => none

/-- The loop of `pike_search` at a position: the threads of the next one, and the slots of the thread that
    matched. -/
def consume (sp : ℕ) :
    List Thread → List ℕ → List Thread → Option (List Thread × Option (Option Slots))
  | [], _, nlist => some (nlist, none)
  | t :: ts, seen, nlist =>
    match prog.insts[t.pc]? with
    | none => none
    | some .match_ => some (nlist, some t.caps)
    | some inst =>
      match prog.advances input sp inst with
      | none => none
      | some false => consume sp ts seen nlist
      | some true =>
        match prog.addThread input gate (sp + 1) ⟨t.pc + 1, t.caps⟩ seen nlist with
        | none => none
        | some (seen, nlist) => consume sp ts seen nlist

/-- The loop of `pike_search` over `n` positions from `sp`. -/
def steps : ℕ → ℕ → List Thread → Option Slots → Option (Option Slots)
  | 0, _, _, matched => some matched
  | n + 1, sp, clist, matched =>
    match prog.consume input gate sp clist [] [] with
    | none => none
    | some (nlist, hit) =>
      let matched := hit.getD matched
      if nlist = [] then some matched else steps n (sp + 1) nlist matched

/-- `Program::gated_search` with no end set. -/
def gatedSearch (start : ℕ) : Option (Option Slots) :=
  match prog.addThread input gate start ⟨0, none⟩ [] [] with
  | none => none
  | some (_, clist) => prog.steps input gate (input.length + 1 - start) start clist none

/-- `Program::search`. -/
def search (start : ℕ) : Option (Option Slots) := prog.gatedSearch input none start

end Program

end Jed.Regex
