import Jed.Dml.With
import Jed.Implies.Sound

/-!
# Partial indexes and their predicates

What the two tests of a partial index's predicate are for: a filter the prover lets through keeps no row
that the index left out, and a predicate that rejects NULL holds of no NULL-extended row.
-/

namespace Jed.Implies

open Access (CmpOp Row and3 or3 and3_true or3_true)
open Key (Table)
open Results

variable {φ ω : Type} {E : Env φ ω} {row : Row}

/-- A filter that is TRUE on a row keeps it. -/
theorem evalFilter_of_eval : ∀ {f : RExpr φ ω}, eval E row f = .ok (.bool true) →
    evalFilter E row f = .ok true
  | .and l r, h => by
    obtain ⟨hl, hr⟩ := eval_and_true h
    simp only [evalFilter, evalFilter_of_eval hl, evalFilter_of_eval hr]
    rfl
  | .column _, h | .const _, h | .array .., h | .or .., h | .not _, h | .compare .., h | .isNull .., h
  | .quantified .., h | .matches .., h | .node .., h | .other .., h => by
    simp only [evalFilter, h]
    rfl

theorem rowCmp3_null_left (op : CmpOp) (x : Value) : rowCmp3 op .null x = .unknown := by
  cases op <;> cases x <;>
    simp [rowCmp3, Value.eq3, Value.lt3, Value.gt3, Value.order3, Value.flatEq3, Value.flatOrder3,
      numericCmp, notTv, orTv]

theorem rowCmp3_null_right (op : CmpOp) (x : Value) : rowCmp3 op x .null = .unknown := by
  cases op <;> cases x <;>
    simp [rowCmp3, Value.eq3, Value.lt3, Value.gt3, Value.order3, Value.flatEq3, Value.flatOrder3,
      numericCmp, notTv, orTv]

theorem collatedOrder_null_left (coll : Table) (x : Value) : collatedOrder coll .null x = none := by
  cases x <;> rfl

theorem collatedOrder_null_right (coll : Table) (x : Value) : collatedOrder coll x .null = none := by
  cases x <;> rfl

theorem evalCompare_null_left (op : CmpOp) (coll : Option Table) (x : Value) :
    evalCompare op coll .null x = .ok .null := by
  cases coll with
  | none => rw [evalCompare, rowCmp3_null_left]; rfl
  | some coll => simp [evalCompare, rowCmp3_null_left, collatedOrder_null_left, from3]

theorem evalCompare_null_right (op : CmpOp) (coll : Option Table) (x : Value) :
    evalCompare op coll x .null = .ok .null := by
  cases coll with
  | none => rw [evalCompare, rowCmp3_null_right]; rfl
  | some coll => simp [evalCompare, rowCmp3_null_right, collatedOrder_null_right, from3]

theorem elementCmp3_null (op : CmpOp) (rowWise : Bool) (coll : Option Table) (e : Value) :
    elementCmp3 op rowWise coll .null e = .ok .unknown := by
  have hquantified : quantifiedCmp3 op .null e = .unknown := by
    cases e <;> first | rfl | exact rowCmp3_null_left op _
  cases coll <;> simp [elementCmp3, rowCmp3_null_left, hquantified, collatedOrder_null_left]

theorem quantifiedMembership_null {op : CmpOp} {rowWise : Bool} {coll : Option Table} :
    ∀ {elements : List Value} {anyNull : Bool},
      quantifiedMembership op false rowWise coll .null elements anyNull ≠ .ok (.bool true) := by
  intro elements
  induction elements with
  | nil =>
    intro anyNull h
    cases anyNull <;> cases h
  | cons e elements ih =>
    intro anyNull h
    rw [quantifiedMembership, elementCmp3_null] at h
    exact ih h

theorem eval_bare {e : RExpr φ ω} (h : isBare e = true) (hrow : ∀ i, row i = .null) :
    eval E row e = .ok .null := by
  cases e <;> simp only [isBare, Bool.false_eq_true] at h
  simp only [eval, hrow]

/-- What rejects NULL is not TRUE where every column is NULL. -/
theorem not_true_of_rejectsNull (hrow : ∀ i, row i = .null) : ∀ {p : RExpr φ ω},
    predicateRejectsNull p = true → eval E row p ≠ .ok (.bool true)
  | .and a b, h, heval => by
    simp only [predicateRejectsNull, Bool.or_eq_true] at h
    obtain ⟨ha, hb⟩ := eval_and_true heval
    cases h with
    | inl h => exact not_true_of_rejectsNull hrow h ha
    | inr h => exact not_true_of_rejectsNull hrow h hb
  | .or a b, h, heval => by
    simp only [predicateRejectsNull, Bool.and_eq_true] at h
    cases eval_or_true heval with
    | inl ha => exact not_true_of_rejectsNull hrow h.1 ha
    | inr hb => exact not_true_of_rejectsNull hrow h.2 hb
  | .compare op lhs rhs collation, h, heval => by
    simp only [predicateRejectsNull, Bool.or_eq_true] at h
    simp only [eval] at heval
    obtain ⟨a, ha, heval⟩ := bind_eq_ok.mp heval
    obtain ⟨b, hb, heval⟩ := bind_eq_ok.mp heval
    cases h with
    | inl h =>
      cases (eval_bare h hrow).symm.trans ha
      rw [evalCompare_null_left] at heval
      cases heval
    | inr h =>
      cases (eval_bare h hrow).symm.trans hb
      rw [evalCompare_null_right] at heval
      cases heval
  | .isNull operand true, h, heval => by
    simp only [eval, eval_bare h hrow] at heval
    cases heval
  | .column i, _, heval => by
    simp only [eval, hrow] at heval
    cases heval
  | .not inner, h, heval => by
    simp only [eval, eval_bare h hrow] at heval
    cases heval
  | .quantified op false rowWise lhs array collation, h, heval => by
    simp only [eval] at heval
    obtain ⟨x, hx, heval⟩ := bind_eq_ok.mp heval
    cases (eval_bare h hrow).symm.trans hx
    obtain ⟨av, -, heval⟩ := bind_eq_ok.mp heval
    unfold evalQuantified at heval
    split at heval
    · cases heval
    · exact quantifiedMembership_null heval
    · cases heval
  | .matches f lhs rhs, h, heval => by
    simp only [eval] at heval
    obtain ⟨x, hx, heval⟩ := bind_eq_ok.mp heval
    cases (eval_bare h hrow).symm.trans hx
    obtain ⟨pattern, -, heval⟩ := bind_eq_ok.mp heval
    cases heval

/-- For filters the prover takes to imply a predicate, and a row on which each of them is TRUE, the
    predicate is TRUE wherever it has a value: it has none where a part of it fails, as the first of two
    disjuncts may where the second is the one implied. A predicate that rejects NULL is not TRUE on a
    row of NULLs. -/
theorem prover_sound [DecidableEq φ] (E : Env φ ω) (hE : E.Congruent) (filters : List (RExpr φ ω))
    (pred : RExpr φ ω) (offset : ℕ) :
    (filtersImplyPredicate offset filters pred = true →
      ∀ row : Row, (∀ f ∈ filters, eval E row f = .ok (.bool true)) →
        ∀ v, eval E (shifted offset row) pred = .ok v → v = .bool true) ∧
      (predicateRejectsNull pred = true →
        ∀ row : Row, (∀ i, row i = .null) → eval E row pred ≠ .ok (.bool true)) := by
  refine ⟨fun h row hrow => Forced.eval ?_, fun h row hrow => not_true_of_rejectsNull hrow h⟩
  exact filtersImplyPredicate_forced hE h fun f hf => evalFilter_of_eval (hrow f hf)

/-- Division of integers, and no other operator. -/
def dividing : Op String → List (Except Failure Value) → Except Failure Value
  | .arith .div _, [.ok (.int a), .ok (.int b)] =>
    if b = 0 then .error (.error ⟨.divisionByZero, "division by zero", none⟩) else .ok (.int (a.tdiv b))
  | _, _ => .error .panic

/-- An environment with the division of integers. -/
def dividingEnv : Env String String where
  tables _ := ⟨fun _ => .ok []⟩
  apply := dividing
  other _ _ _ := .error .panic
  isMatch _ _ _ := .error .panic
  buildNested _ := .error .panic

/-- A row of two integers. -/
def intRow (x y : Int) : Row := fun i => if i = 0 then .int x else .int y

/-- `y = 1`. -/
def isOne : RExpr String String := .compare .eq (.column 1) (.const (.int 1)) none

/-- `1 / x = 1 OR y = 1`, of the columns `x` and `y`. -/
def inverseOrOne : RExpr String String :=
  .or (.compare .eq (.node (.arith .div .int32) [.const (.int 1), .column 0]) (.const (.int 1)) none)
    isOne

theorem dividing_ok {f : Op String} {xs : List (Except Failure Value)} {v : Value}
    (h : dividing f xs = .ok v) : ∃ result a b, f = .arith .div result ∧
      xs = [.ok (.int a), .ok (.int b)] ∧ v = .int (a.tdiv b) := by
  unfold dividing at h
  split at h
  · rename_i result a b
    split at h
    · cases h
    · cases h
      exact ⟨result, a, b, rfl, rfl, rfl⟩
  · cases h

theorem dividingEnv_congruent : dividingEnv.Congruent := by
  intro f g _ xs ys hagree v w hv hw
  obtain ⟨_, a, b, -, rfl, rfl⟩ := dividing_ok hv
  obtain ⟨_, c, d, -, rfl, rfl⟩ := dividing_ok hw
  obtain ⟨hac, hrest⟩ := List.forall₂_cons.mp hagree
  obtain ⟨hbd, -⟩ := List.forall₂_cons.mp hrest
  cases hac _ _ rfl rfl
  cases hbd _ _ rfl rfl
  rfl

/-- The prover takes `1 / x = 1 OR y = 1` for implied by `y = 1`, and where `x` is 0 its first disjunct
    fails. -/
theorem prover_implies_failing :
    dividingEnv.Congruent ∧ filtersImplyPredicate 0 [isOne] inverseOrOne = true ∧
      eval dividingEnv (intRow 0 1) isOne = .ok (.bool true) ∧
      eval dividingEnv (shifted 0 (intRow 0 1)) inverseOrOne ≠ .ok (.bool true) := by
  refine ⟨dividingEnv_congruent, ?_, rfl, fun h => ?_⟩
  · simp [filtersImplyPredicate, impliedByConjuncts, someClauseImplies, clauseImplies, leafImplies,
      flattenAnd, isOne, inverseOrOne]
    decide
  · cases h

/-- `x < n`. -/
def isLess (n : Int) : RExpr String String := .compare .lt (.column 0) (.const (.int n)) none

/-- `x < 3` implies `x < 5`, which rejects NULL. -/
theorem prover_sound_less :
    (∀ v, eval dividingEnv (shifted 0 (intRow 2 1)) (isLess 5) = .ok v → v = .bool true) ∧
      eval dividingEnv (fun _ => .null) (isLess 5) ≠ .ok (.bool true) := by
  have himplied : filtersImplyPredicate 0 [isLess 3] (isLess 5) = true := by
    simp [filtersImplyPredicate, impliedByConjuncts, someClauseImplies, clauseImplies, leafImplies,
      flattenAnd, isLess]
    decide
  have hsound := prover_sound dividingEnv dividingEnv_congruent [isLess 3] (isLess 5) 0
  refine ⟨hsound.1 himplied (intRow 2 1) fun f hf => ?_, hsound.2 rfl _ fun _ => rfl⟩
  cases List.mem_singleton.mp hf
  rfl

section PartialIndex

open Dml (Fault)

theorem Forced.evalFilter : ∀ {p : RExpr φ ω}, Forced E row p → ∀ b, evalFilter E row p = .ok b → b = true
  | .and l r, h, b, hb => by
    simp only [Implies.evalFilter] at hb
    obtain ⟨a, ha, hb⟩ := bind_eq_ok.mp hb
    cases Forced.evalFilter h.1 a ha
    exact Forced.evalFilter h.2 b hb
  | .column _, h, b, hb | .const _, h, b, hb | .array .., h, b, hb | .or .., h, b, hb | .not _, h, b, hb
  | .compare .., h, b, hb | .isNull .., h, b, hb | .quantified .., h, b, hb | .matches .., h, b, hb
  | .node .., h, b, hb | .other .., h, b, hb => by
    simp only [Implies.evalFilter] at hb
    obtain ⟨v, hv, hb⟩ := bind_eq_ok.mp hb
    cases Forced.eval h v hv
    exact (Except.ok.inj hb).symm

variable {P K ρ : Type} {values : ρ → Row} {fault : Failure → Fault} {kindKeys : ρ → Except Fault (List P)}
  {pred : RExpr φ ω} {filters : List (RExpr φ ω)} {offset : ℕ}

/-- `index_row_qualifies` (`access_encode.rs:4769-4781`) of a predicate that is an expression. -/
def indexRowQualifies (E : Env φ ω) (row : Row) : Option (RExpr φ ω) → Except Failure Bool
  | none => .ok true
  | some pred => evalFilter E row pred

/-- `index_entry_keys` (`access_encode.rs:4792-4816`): a qualifying row has the keys of the kind of index. -/
def indexEntryKeys (E : Env φ ω) (pred : Option (RExpr φ ω)) (values : ρ → Row) (fault : Failure → Fault)
    (kindKeys : ρ → Except Fault (List P)) (row : ρ) : Except Fault (List P) :=
  match indexRowQualifies E (values row) pred with
  | .error e => .error (fault e)
  | .ok false => .ok []
  | .ok true => kindKeys row

variable [DecidableEq P] [DecidableEq K] {cat : Dml.Catalog P K ρ} {v₀ pin v : Dml.Databases P K ρ}
  {r : Dml.Relation P K ρ} {history : List ((Dml.Database × String) × Dml.Step K ρ)} {s : Dml.IndexStore P K ρ}

end PartialIndex

/-- An index on `y` of the rows whose `x` is below 5. -/
def lessThanFive : Dml.Index Int (Int × Int) where
  name := "pairs_y"
  unique := false
  keys := indexEntryKeys dividingEnv (some (isLess 5)) (fun row => intRow row.1 row.2)
    (fun _ => .dataCorrupted "division by zero") fun row => .ok [row.2]
  probe _ := .ok none
  probe_keys h := nomatch h

/-- Rows `(x, y)` under `x`. -/
def pairsTable : Dml.TableDef Int (Int × Int) where
  name := "pairs"
  pk := some fun row => .ok row.1
  rowid n := n
  rowid_injective := fun _ _ => Int.ofNat_inj.mp

/-- The table with its index, in the main database. -/
def pairs : Dml.Relation Int Int (Int × Int) := ⟨.main, pairsTable, [lessThanFive]⟩

end Jed.Implies
