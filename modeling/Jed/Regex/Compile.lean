import Jed.Lib.Lockstep
import Jed.Regex.Parse

/-!
# The regex compiler

`Compiler` of `regex.rs`: a tree to bytecode. A node's emission is written over the emission of its
bodies; the equations at the end give the recursion of the source, whose `Star` and `Repeat` build the
nodes that they emit.
-/

namespace Jed.Regex

open Jed.Runs

/-- `Compiler`, with the calls of `emit` so far. -/
structure Compiler where
  insts : List Inst
  classes : List CharClass
  calls : ℕ

/-- An emission: it ends with the state that it reached, also when it fails. -/
abbrev Emission (α : Type) : Type := Run Compiler RegexError α

mutual
/-- `nullable`. -/
def nullable : Node → Bool
  | .char _ | .any | .class_ _ => false
  | .concat nodes => allNullable nodes
  | .alt a b => nullable a || nullable b
  | .plus sub _ | .group sub _ => nullable sub
  | .repeat_ sub min _ _ => decide (min = 0) || nullable sub
  | .empty | .star .. | .quest .. | .anchorStart | .anchorEnd | .lineStart | .lineEnd => true
/-- `subs.iter().all(nullable)`. -/
def allNullable : List Node → Bool
  | [] => true
  | n :: ns => nullable n && allNullable ns
end

/-- A call of `Compiler::emit`. -/
def called : Emission Unit := fun c => (.ok (), { c with calls := c.calls + 1 })

/-- `Compiler::push`. -/
def push (inst : Inst) : Emission ℕ := fun c =>
  if c.insts.length ≥ maxRegexProgram then (.error .tooComplex, c)
  else (.ok c.insts.length, { c with insts := c.insts ++ [inst] })

/-- `self.insts.len()`. -/
def here : Emission ℕ := fun c => (.ok c.insts.length, c)

/-- `self.insts[i] = inst`. -/
def patch (i : ℕ) (inst : Inst) : Emission Unit := fun c =>
  (.ok (), { c with insts := c.insts.set i inst })

/-- `self.classes.push`, at the place it gives. -/
def pushClass (cc : CharClass) : Emission ℕ := fun c =>
  (.ok c.classes.length, { c with classes := c.classes ++ [cc] })

/-- An instruction on its own. -/
def emitInst (inst : Inst) : Emission Unit := do
  let _ ← push inst
  pure ()

/-- The `Class` arm of `Compiler::emit`. -/
def emitClass (cc : CharClass) : Emission Unit := do
  let k ← pushClass cc
  emitInst (.class_ k)

/-- The split whose first arm is preferred when `greedy`. -/
def splitOf (greedy : Bool) (x y : ℕ) : Inst := if greedy then .split x y else .split y x

/-- The `Alt` arm. -/
def emitAlt (a b : Emission Unit) : Emission Unit := do
  let split ← push (.split 0 0)
  let lx ← here
  a
  let jmp ← push (.jmp 0)
  let ly ← here
  b
  let lend ← here
  patch split (.split lx ly)
  patch jmp (.jmp lend)

/-- The `Star` arm over a body that is not nullable. -/
def emitLoop (sub : Emission Unit) (greedy : Bool) : Emission Unit := do
  let l1 ← push (.split 0 0)
  let l2 ← here
  sub
  emitInst (.jmp l1)
  let l3 ← here
  patch l1 (splitOf greedy l2 l3)

/-- The `Plus` arm. -/
def emitPlus (sub : Emission Unit) (greedy : Bool) : Emission Unit := do
  let l1 ← here
  sub
  let split ← push (.split 0 0)
  let l3 ← here
  patch split (splitOf greedy l1 l3)

/-- The `Quest` arm. -/
def emitQuest (sub : Emission Unit) (greedy : Bool) : Emission Unit := do
  let split ← push (.split 0 0)
  let l1 ← here
  sub
  let l2 ← here
  patch split (splitOf greedy l1 l2)

/-- The `Star` arms: over a nullable body `(sub+)?`, emitted by calls of its own. -/
def emitStar (sub : Emission Unit) (nullableSub greedy : Bool) : Emission Unit :=
  if nullableSub then do
    called
    emitQuest (do called; emitPlus sub greedy) greedy
  else emitLoop sub greedy

/-- `for _ in 0..n { x? }`. -/
def times : ℕ → Emission Unit → Emission Unit
  | 0, _ => pure ()
  | n + 1, x => do
    x
    times n x

/-- `Compiler::emit_repeat`. -/
def emitRepeat (sub : Emission Unit) (nullableSub : Bool) (min : ℕ) (max : Option ℕ)
    (greedy : Bool) : Emission Unit := do
  times min sub
  match max with
  | none => do
    called
    emitStar sub nullableSub greedy
  | some m =>
    times (m - min) (do
      called
      emitQuest sub greedy)

/-- The `Group` arm. -/
def emitGroup (sub : Emission Unit) : Option ℕ → Emission Unit
  | some i => do
    emitInst (.save (2 * i))
    sub
    emitInst (.save (2 * i + 1))
  | none => sub

mutual
/-- `Compiler::emit`. -/
def emit : Node → Emission Unit
  | .empty => called
  | .char c => do called; emitInst (.char c)
  | .any => do called; emitInst .any
  | .class_ cc => do called; emitClass cc
  | .concat nodes => do called; emitAll nodes
  | .alt a b => do called; emitAlt (emit a) (emit b)
  | .star sub greedy => do called; emitStar (emit sub) (nullable sub) greedy
  | .plus sub greedy => do called; emitPlus (emit sub) greedy
  | .quest sub greedy => do called; emitQuest (emit sub) greedy
  | .repeat_ sub min max greedy => do called; emitRepeat (emit sub) (nullable sub) min max greedy
  | .group sub index => do called; emitGroup (emit sub) index
  | .anchorStart => do called; emitInst .assertStart
  | .anchorEnd => do called; emitInst .assertEnd
  | .lineStart => do called; emitInst .assertLineStart
  | .lineEnd => do called; emitInst .assertLineEnd
/-- The loop of the `Concat` arm. -/
def emitAll : List Node → Emission Unit
  | [] => pure ()
  | n :: ns => do
    emit n
    emitAll ns
end

/-- `Wrapper`. -/
inductive Wrapper where
  | search
  | gatedLeftmost
  | gatedRightmost
  deriving DecidableEq

/-- The instructions that `compile_wrapped` pushes before its root. -/
def Wrapper.head (w : Wrapper) : List Inst :=
  [if w = .gatedRightmost then .split 1 3 else .split 3 1, .anyChar, .jmp 0] ++
    (if w = .search then [] else [.gate]) ++ [.save 0]

/-- Instructions one after the other. -/
def emitInsts : List Inst → Emission Unit
  | [] => pure ()
  | i :: is => do
    emitInst i
    emitInsts is

/-- The emission of `compile_wrapped`. -/
def emitProgram (w : Wrapper) (root : Node) : Emission Unit := do
  emitInsts w.head
  emit root
  emitInsts [.save 1, .match_]

/-- `compile_wrapped` of a pattern's tree: the program or the error, and the state reached. -/
def compileRoot (w : Wrapper) (root : Node) (ngroups : ℕ) : Except RegexError Program × Compiler :=
  match emitProgram w root ⟨[], [], 0⟩ with
  | (r, c) => (r.map fun _ => ⟨c.insts, c.classes, ngroups⟩, c)

/-- `compile_wrapped`, with the number of its calls of `Compiler::emit`. -/
def compileWrapped (pattern : List Char) (mode : Mode) (w : Wrapper) :
    Except RegexError Program × ℕ :=
  match parse mode pattern with
  | .error e => (.error e, 0)
  | .ok (root, ngroups) =>
    ((compileRoot w root ngroups).1, (compileRoot w root ngroups).2.calls)

/-- `compile_mode`. -/
def compileMode (pattern : List Char) (mode : Mode) : Except RegexError Program × ℕ :=
  compileWrapped pattern mode .search

/-- `compile`. -/
def compile (pattern : List Char) : Except RegexError Program × ℕ := compileMode pattern .plain

end Jed.Regex
