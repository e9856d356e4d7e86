import Jed.Implies.Compare
import Jed.Lib.Results

/-!
# The prover is sound

What the prover takes for implied is TRUE on every row on which the filters are TRUE, wherever it has a
value there: a disjunct before the implied one may fail.
-/

namespace Jed.Implies

open Access (CmpOp Row and3 or3 isTrue arrayOf and3_true or3_true isTrue_iff)
open Key KeyCodes Results Prover

namespace Prover

variable {p q : Prover}

theorem Succeeds.of_ticked (h : (ticked p).Succeeds) : p.Succeeds := by
  obtain ⟨steps, h⟩ := h
  cases steps with
  | zero => cases h
  | succ steps => exact ⟨steps, h⟩

theorem Succeeds.of_both (h : (both p q).Succeeds) : p.Succeeds ∧ q.Succeeds := by
  obtain ⟨steps, h⟩ := h
  unfold both at h
  split at h
  · rename_i rest hp
    exact ⟨⟨steps, by rw [hp]⟩, ⟨rest, h⟩⟩
  · cases h

theorem Succeeds.of_either (h : (either p q).Succeeds) : p.Succeeds ∨ q.Succeeds := by
  obtain ⟨steps, h⟩ := h
  unfold either at h
  split at h
  · rename_i rest hp
    exact .inl ⟨steps, by rw [hp]⟩
  · rename_i rest hp
    exact .inr ⟨rest, h⟩

theorem Succeeds.of_answer {b : Bool} (h : (answer b).Succeeds) : b = true := h.choose_spec

end Prover

/-- Results that are one wherever both are values. -/
def Agree (x y : Except Failure Value) : Prop := ∀ v w, x = .ok v → y = .ok w → v = w

variable {φ ω : Type} [DecidableEq φ] {E : Env φ ω} {row : Row} {offset : ℕ}

/-- Operators that are taken for one agree on operands that agree: the type of the result, which is not
    looked at, decides only whether there is a result. -/
def Env.Congruent (E : Env φ ω) : Prop :=
  ∀ f g, sameOp f g = true → ∀ xs ys, List.Forall₂ Agree xs ys → Agree (E.apply f xs) (E.apply g ys)

/-- The row of the table, within the row of the scope. -/
def shifted (offset : ℕ) (row : Row) : Row := fun i => row (i + offset)

theorem agree_self (x : Except Failure Value) : Agree x x := by
  intro v w hv hw
  cases hv.symm.trans hw
  rfl

theorem Agree.bind {x y : Except Failure Value} {f g : Value → Except Failure Value} (h : Agree x y)
    (hfg : ∀ v, Agree (f v) (g v)) : Agree (x >>= f) (y >>= g) := by
  intro v w hv hw
  obtain ⟨a, ha, hv⟩ := bind_eq_ok.mp hv
  obtain ⟨b, hb, hw⟩ := bind_eq_ok.mp hw
  cases h a b ha hb
  exact hfg a v w hv hw

theorem evalCompare_of_not_ordering {op : CmpOp} (h : isOrdering op = false) (coll : Option Table)
    (a b : Value) : evalCompare op coll a b = .ok (from3 (rowCmp3 op a b)) := by
  unfold evalCompare
  split
  · rw [if_neg (by simp [h])]
  · rfl

mutual

/-- What is structurally equal has one value, where it has one. -/
theorem agree_of_eqShifted (hE : E.Congruent) : ∀ {a b : RExpr φ ω}, rexprEqShifted offset a b = true →
    Agree (eval E row a) (eval E (shifted offset row) b)
  | .column x, b, h => by
    cases b <;> simp only [rexprEqShifted, Bool.false_eq_true, beq_iff_eq] at h
    simp only [eval, shifted, h]
    exact agree_self _
  | .const x, b, h => by
    cases b <;> simp only [rexprEqShifted, Bool.false_eq_true] at h
    rename_i y
    have hxy : x = y := by
      cases x <;> cases y <;> simp_all [sameConst]
    simp only [eval, hxy]
    exact agree_self _
  | .node f as, b, h => by
    cases b <;> simp only [rexprEqShifted, Bool.false_eq_true, Bool.and_eq_true] at h
    simp only [eval]
    exact hE _ _ h.1 _ _ (agree_of_allEqShifted hE h.2)
  | .not a, b, h => by
    cases b <;> simp only [rexprEqShifted, Bool.false_eq_true] at h
    simp only [eval]
    exact (agree_of_eqShifted hE h).bind fun v => agree_self _
  | .compare oa la ra ca, b, h => by
    cases b <;> simp only [rexprEqShifted, Bool.false_eq_true, Bool.and_eq_true, beq_iff_eq,
      Bool.or_eq_true, Bool.not_eq_true'] at h
    rename_i ob lb rb cb
    obtain ⟨⟨⟨rfl, hcoll⟩, hl⟩, hr⟩ := h
    simp only [eval]
    refine (agree_of_eqShifted hE hl).bind fun v => (agree_of_eqShifted hE hr).bind fun w => ?_
    cases hcoll with
    | inl hop =>
      rw [evalCompare_of_not_ordering hop, evalCompare_of_not_ordering hop]
      exact agree_self _
    | inr hname =>
      rw [hname]
      exact agree_self _
  | .and la ra, b, h => by
    cases b <;> simp only [rexprEqShifted, Bool.false_eq_true, Bool.and_eq_true] at h
    simp only [eval]
    refine (agree_of_eqShifted hE h.1).bind fun v => ?_
    split
    · exact agree_self _
    · exact (agree_of_eqShifted hE h.2).bind fun w => agree_self _
  | .or la ra, b, h => by
    cases b <;> simp only [rexprEqShifted, Bool.false_eq_true, Bool.and_eq_true] at h
    simp only [eval]
    refine (agree_of_eqShifted hE h.1).bind fun v => ?_
    split
    · exact agree_self _
    · exact (agree_of_eqShifted hE h.2).bind fun w => agree_self _
  | .isNull a na, b, h => by
    cases b <;> simp only [rexprEqShifted, Bool.false_eq_true, Bool.and_eq_true, beq_iff_eq] at h
    obtain ⟨rfl, h⟩ := h
    simp only [eval]
    exact (agree_of_eqShifted hE h).bind fun v => agree_self _
  | .array .., b, h | .quantified .., b, h | .matches .., b, h | .other .., b, h => by
    cases b <;> simp only [rexprEqShifted, Bool.false_eq_true] at h

theorem agree_of_allEqShifted (hE : E.Congruent) : ∀ {as bs : List (RExpr φ ω)},
    allEqShifted offset as bs = true →
    List.Forall₂ Agree (evalAll E row as) (evalAll E (shifted offset row) bs)
  | [], bs, h => by
    cases bs with
    | nil => exact .nil
    | cons b bs => simp [allEqShifted] at h
  | a :: as, bs, h => by
    cases bs with
    | nil => simp [allEqShifted] at h
    | cons b bs =>
      simp only [allEqShifted, Bool.and_eq_true] at h
      exact .cons (agree_of_eqShifted hE h.1) (agree_of_allEqShifted hE h.2)

end

variable (E row) in
/-- TRUE wherever it has a value, and each conjunct by itself. -/
def Forced : RExpr φ ω → Prop
  | .and l r => Forced l ∧ Forced r
  | p => ∀ v, eval E row p = .ok v → v = .bool true

omit [DecidableEq φ] in
theorem Forced.eval : ∀ {p : RExpr φ ω}, Forced E row p → ∀ v, eval E row p = .ok v → v = .bool true
  | .and l r, h, v, hv => by
    simp only [Implies.eval] at hv
    obtain ⟨a, ha, hv⟩ := bind_eq_ok.mp hv
    cases Forced.eval h.1 a ha
    obtain ⟨b, hb, hv⟩ := bind_eq_ok.mp hv
    cases Forced.eval h.2 b hb
    cases hv
    rfl
  | .column _, h, v, hv | .const _, h, v, hv | .array .., h, v, hv | .or .., h, v, hv | .not _, h, v, hv
  | .compare .., h, v, hv | .isNull .., h, v, hv | .quantified .., h, v, hv | .matches .., h, v, hv
  | .node .., h, v, hv | .other .., h, v, hv => h v hv

omit [DecidableEq φ] in
omit [DecidableEq φ] in
theorem forced_or {a b : RExpr φ ω} (h : Forced E row a ∨ Forced E row b) : Forced E row (.or a b) := by
  intro v hv
  simp only [eval] at hv
  obtain ⟨x, hx, hv⟩ := bind_eq_ok.mp hv
  cases h with
  | inl ha =>
    cases ha.eval x hx
    cases hv
    rfl
  | inr hb =>
    split at hv
    · cases hv
      rfl
    · obtain ⟨y, hy, hv⟩ := bind_eq_ok.mp hv
      cases hb.eval y hy
      cases hv
      unfold or3
      split <;> first | rfl | simp_all

omit [DecidableEq φ] in
theorem eval_and_true {l r : RExpr φ ω} (h : eval E row (.and l r) = .ok (.bool true)) :
    eval E row l = .ok (.bool true) ∧ eval E row r = .ok (.bool true) := by
  simp only [eval] at h
  obtain ⟨a, ha, h⟩ := bind_eq_ok.mp h
  split at h
  · cases h
  · obtain ⟨b, hb, h⟩ := bind_eq_ok.mp h
    obtain ⟨rfl, rfl⟩ := and3_true (Except.ok.inj h)
    exact ⟨ha, hb⟩

omit [DecidableEq φ] in
theorem eval_or_true {l r : RExpr φ ω} (h : eval E row (.or l r) = .ok (.bool true)) :
    eval E row l = .ok (.bool true) ∨ eval E row r = .ok (.bool true) := by
  simp only [eval] at h
  obtain ⟨a, ha, h⟩ := bind_eq_ok.mp h
  split at h
  · exact .inl ha
  · obtain ⟨b, hb, h⟩ := bind_eq_ok.mp h
    cases or3_true (Except.ok.inj h) with
    | inl h => exact .inl (h ▸ ha)
    | inr h => exact .inr (h ▸ hb)

theorem forced_of_eqShifted (hE : E.Congruent) : ∀ {w p : RExpr φ ω}, rexprEqShifted offset w p = true →
    eval E row w = .ok (.bool true) → Forced E (shifted offset row) p
  | w, .and l r, h, hw => by
    cases w <;> simp only [rexprEqShifted, Bool.false_eq_true, Bool.and_eq_true] at h
    obtain ⟨hl, hr⟩ := eval_and_true hw
    exact ⟨forced_of_eqShifted hE h.1 hl, forced_of_eqShifted hE h.2 hr⟩
  | w, .column _, h, hw | w, .const _, h, hw | w, .array .., h, hw | w, .or .., h, hw | w, .not _, h, hw
  | w, .compare .., h, hw | w, .isNull .., h, hw | w, .quantified .., h, hw | w, .matches .., h, hw
  | w, .node .., h, hw | w, .other .., h, hw => fun v hv => (agree_of_eqShifted hE h _ v hw hv).symm

variable (E row) in
/-- A premise holds of a row. Under a collation an ordering says no more than that its operand is not
    NULL. -/
def Premise.Holds (premise : Premise φ ω) : Prop :=
  ∃ x, eval E row premise.operand = .ok x ∧ isNullTest x true = true ∧
    (isOrdering premise.op = false ∨ premise.cOrder = true →
      rowCmp3 premise.op x premise.value.value = .true)

theorem isNullTest_of_against {x : Value} {c : ProverConst} {ord : Ordering}
    (h : c.against x = some ord) : isNullTest x true = true := by
  cases c <;> cases x <;> first | rfl | cases h

theorem isNullTest_of_ofOrder {op : CmpOp} {x : Value} {c : ProverConst}
    (h : ofOrder op (c.against x) = .true) : isNullTest x true = true := by
  cases hord : c.against x with
  | none =>
    rw [hord] at h
    cases h
  | some ord => exact isNullTest_of_against hord

theorem from3_true {t : ThreeValued} (h : from3 t = .bool true) : t = .true := by
  cases t <;> first | rfl | cases h

theorem isOrdering_flipCmp (op : CmpOp) : isOrdering (flipCmp op) = isOrdering op := by
  cases op <;> rfl

theorem isNullTest_of_collatedOrder {coll : Table} {x y : Value} {ord : Except Failure Ordering}
    (h : collatedOrder coll x y = some ord) : isNullTest x true = true ∧ isNullTest y true = true := by
  cases x <;> cases y <;> first | exact ⟨rfl, rfl⟩ | cases h

theorem evalCompare_plain {op : CmpOp} {coll : Option Table}
    (h : isOrdering op = false ∨ coll.isNone = true) (a b : Value) :
    evalCompare op coll a b = .ok (from3 (rowCmp3 op a b)) := by
  cases h with
  | inl h => exact evalCompare_of_not_ordering h coll a b
  | inr h =>
    rw [Option.isNone_iff_eq_none.mp h]
    rfl

/-- A comparison that is TRUE is so plainly, or orders under a collation what is not NULL. -/
theorem evalCompare_true {op : CmpOp} {coll : Option Table} {a b : Value}
    (h : evalCompare op coll a b = .ok (.bool true)) : rowCmp3 op a b = .true ∨
      ((isOrdering op = true ∧ coll.isNone = false) ∧ isNullTest a true = true ∧
        isNullTest b true = true) := by
  cases coll with
  | none => exact .inl (from3_true (Except.ok.inj h))
  | some coll =>
    cases hop : isOrdering op with
    | false =>
      rw [evalCompare_of_not_ordering hop] at h
      exact .inl (from3_true (Except.ok.inj h))
    | true =>
      rw [evalCompare, if_pos hop] at h
      split at h
      · rename_i ord hord
        exact .inr ⟨⟨rfl, rfl⟩, isNullTest_of_collatedOrder hord⟩
      · cases h

omit [DecidableEq φ] in
theorem fromRExpr_eq_some {e : RExpr φ ω} {c : ProverConst} (h : ProverConst.fromRExpr e = some c) :
    e = .const c.value := by
  cases e <;> simp only [ProverConst.fromRExpr, reduceCtorEq] at h
  rw [fromValue_eq_some h]

omit [DecidableEq φ] in
/-- An atom is a comparison with a constant, on the right or, flipped, on the left. -/
theorem comparisonAtom_eq_some {w : RExpr φ ω} {atom : Premise φ ω} (h : comparisonAtom w = some atom) :
    ∃ op lhs rhs collation, w = .compare op lhs rhs collation ∧ atom.cOrder = collation.isNone ∧
      (atom.operand = lhs ∧ atom.op = op ∧ rhs = .const atom.value.value ∨
        atom.operand = rhs ∧ atom.op = flipCmp op ∧ lhs = .const atom.value.value) := by
  cases w <;> simp only [comparisonAtom, reduceCtorEq] at h
  rename_i op lhs rhs collation
  refine ⟨op, lhs, rhs, collation, rfl, ?_⟩
  split at h
  · rename_i c hc
    cases h
    exact ⟨rfl, .inl ⟨rfl, rfl, fromRExpr_eq_some hc⟩⟩
  · obtain ⟨c, hc, rfl⟩ := Option.map_eq_some_iff.mp h
    exact ⟨rfl, .inr ⟨rfl, rfl, fromRExpr_eq_some hc⟩⟩

theorem rowCmp3_flip (op : CmpOp) (x : Value) (c : ProverConst) :
    rowCmp3 op c.value x = rowCmp3 (flipCmp op) x c.value := by
  rw [const_rowCmp3, rowCmp3_const]

omit [DecidableEq φ] in
/-- A comparison atom that is TRUE is a premise. -/
theorem comparisonAtom_holds {w : RExpr φ ω} {premise : Premise φ ω}
    (h : comparisonAtom w = some premise) (hw : eval E row w = .ok (.bool true)) :
    premise.Holds E row := by
  obtain ⟨op, lhs, rhs, collation, rfl, hcoll, hside⟩ := comparisonAtom_eq_some h
  simp only [eval] at hw
  obtain ⟨a, ha, hw⟩ := bind_eq_ok.mp hw
  obtain ⟨b, hb, hw⟩ := bind_eq_ok.mp hw
  have hordered : (collation.map E.tables).isNone = collation.isNone := by cases collation <;> rfl
  obtain ⟨hoperand, hop, rfl⟩ | ⟨hoperand, hop, rfl⟩ := hside
  · cases hb
    refine ⟨a, hoperand ▸ ha, ?_⟩
    rw [hop, hcoll, ← hordered]
    cases evalCompare_true hw with
    | inl hplain => exact ⟨isNullTest_of_ofOrder ((rowCmp3_const op a _).symm.trans hplain), fun _ => hplain⟩
    | inr hsome =>
      refine ⟨hsome.2.1, fun hor => ?_⟩
      rw [hsome.1.1, hsome.1.2] at hor
      cases hor with
      | inl h => cases h
      | inr h => cases h
  · cases ha
    refine ⟨b, hoperand ▸ hb, ?_⟩
    rw [hop, hcoll, ← hordered, isOrdering_flipCmp]
    cases evalCompare_true hw with
    | inl hplain =>
      rw [rowCmp3_flip] at hplain
      exact ⟨isNullTest_of_ofOrder ((rowCmp3_const _ b _).symm.trans hplain), fun _ => hplain⟩
    | inr hsome =>
      refine ⟨hsome.2.2, fun hor => ?_⟩
      rw [hsome.1.1, hsome.1.2] at hor
      cases hor with
      | inl h => cases h
      | inr h => cases h

omit [DecidableEq φ] in
/-- What a comparison atom is worth, where no collation orders it. -/
theorem comparisonAtom_value {p : RExpr φ ω} {atom : Premise φ ω} (h : comparisonAtom p = some atom)
    (hplain : isOrdering atom.op = false ∨ atom.cOrder = true) {v : Value} (hv : eval E row p = .ok v) :
    ∃ x, eval E row atom.operand = .ok x ∧ v = from3 (rowCmp3 atom.op x atom.value.value) := by
  obtain ⟨op, lhs, rhs, collation, rfl, hcoll, hside⟩ := comparisonAtom_eq_some h
  simp only [eval] at hv
  obtain ⟨a, ha, hv⟩ := bind_eq_ok.mp hv
  obtain ⟨b, hb, hv⟩ := bind_eq_ok.mp hv
  have hordered : (collation.map E.tables).isNone = collation.isNone := by cases collation <;> rfl
  rw [hcoll, ← hordered] at hplain
  obtain ⟨hoperand, hop, rfl⟩ | ⟨hoperand, hop, rfl⟩ := hside
  · cases hb
    rw [hop] at hplain ⊢
    rw [evalCompare_plain hplain] at hv
    exact ⟨a, hoperand ▸ ha, (Except.ok.inj hv).symm⟩
  · cases ha
    rw [hop] at hplain ⊢
    rw [isOrdering_flipCmp] at hplain
    rw [evalCompare_plain hplain, rowCmp3_flip] at hv
    exact ⟨b, hoperand ▸ hb, (Except.ok.inj hv).symm⟩

/-- A comparison atom that the table derives from a premise. -/
theorem atom_forced (hE : E.Congruent) {premise atom : Premise φ ω} {p : RExpr φ ω} {ord : Ordering}
    (hp : premise.Holds E row) (hatom : comparisonAtom p = some atom)
    (heq : rexprEqShifted offset premise.operand atom.operand = true)
    (hplain : isOrdering premise.op = false ∧ isOrdering atom.op = false ∨
      premise.cOrder = true ∧ atom.cOrder = true)
    (hord : premise.value.cmp atom.value = some ord)
    (himp : comparisonImplies premise.op atom.op ord = true) :
    ∀ v, eval E (shifted offset row) p = .ok v → v = .bool true := by
  intro v hv
  obtain ⟨x, hx, -, hcmp⟩ := hp
  obtain ⟨y, hy, rfl⟩ := comparisonAtom_value hatom (hplain.imp And.right And.right) hv
  cases agree_of_eqShifted hE heq x y hx hy
  have htrue := hcmp (hplain.imp And.left And.left)
  rw [rowCmp3_const] at htrue ⊢
  cases hagainst : premise.value.against x with
  | none =>
    rw [hagainst] at htrue
    cases htrue
  | some o1 =>
    obtain ⟨o2, ho2, hcons⟩ := against_cmp hagainst hord
    have hholds : holdsOrder premise.op o1 = true := by
      rw [hagainst, ofOrder] at htrue
      by_contra hne
      rw [Bool.not_eq_true] at hne
      rw [hne] at htrue
      cases htrue
    rw [ho2, ofOrder, comparisonImplies_holds hcons hholds himp]
    rfl

/-- The last arm of `atom_implies`. -/
theorem comparisonArm_forced (hE : E.Congruent) {premise : Premise φ ω} {p : RExpr φ ω}
    (hp : premise.Holds E row) (h : (comparisonArm offset premise p).Succeeds) :
    ∀ v, eval E (shifted offset row) p = .ok v → v = .bool true := by
  unfold comparisonArm at h
  split at h
  · cases h.of_answer
  · rename_i atom hatom
    split at h
    case isTrue => cases h.of_answer
    case isFalse heq =>
      split at h
      case isTrue => cases h.of_answer
      case isFalse hordering =>
        split at h
        · rename_i ord hord
          refine atom_forced hE hp hatom (by simpa using heq) ?_ hord h.of_answer
          cases hone : isOrdering premise.op <;> cases htwo : isOrdering atom.op <;>
            simp_all
        · cases h.of_answer

/-- What a premise implies. -/
theorem atomImplies_forced (hE : E.Congruent) {premise : Premise φ ω} (hp : premise.Holds E row) :
    ∀ {p : RExpr φ ω}, (atomImplies offset premise p).Succeeds → Forced E (shifted offset row) p
  | .and a b, h => by
    rw [atomImplies] at h
    obtain ⟨ha, hb⟩ := h.of_ticked.of_both
    exact ⟨atomImplies_forced hE hp ha, atomImplies_forced hE hp hb⟩
  | .or a b, h => by
    rw [atomImplies] at h
    exact forced_or (h.of_ticked.of_either.imp (atomImplies_forced hE hp) (atomImplies_forced hE hp))
  | .isNull operand true, h => by
    rw [atomImplies] at h
    have heq := h.of_ticked.of_answer
    intro v hv
    obtain ⟨x, hx, hnull, -⟩ := hp
    simp only [eval] at hv
    obtain ⟨y, hy, hv⟩ := bind_eq_ok.mp hv
    cases agree_of_eqShifted hE heq x y hx hy
    rw [hnull] at hv
    cases hv
    rfl
  | .isNull operand false, h | .column _, h | .const _, h | .array .., h | .not _, h | .compare .., h
  | .quantified .., h | .matches .., h | .node .., h | .other .., h => by
    rw [atomImplies] at h
    · exact comparisonArm_forced hE hp h.of_ticked
    all_goals exact nofun

theorem elementsImply_succeeds {operand p : RExpr φ ω} {cOrder : Bool} :
    ∀ {elems : List (Option ProverConst)} {any : Bool},
      (elementsImply offset operand cOrder p elems any).Succeeds →
      ∀ c, some c ∈ elems → (atomImplies offset ⟨operand, .eq, c, cOrder⟩ p).Succeeds := by
  intro elems
  induction elems with
  | nil => exact fun _ _ hc => by cases hc
  | cons e elems ih =>
    intro any h c hc
    cases e with
    | none =>
      cases hc with
      | tail _ hc => exact ih h c hc
    | some d =>
      obtain ⟨hd, hrest⟩ := h.of_both
      cases hc with
      | head => exact hd
      | tail _ hc => exact ih hrest c hc

/-- An element of an array of constants is NULL or one of the constants. -/
theorem mem_proverConsts : ∀ {values : List Value} {elems : List (Option ProverConst)},
    proverConsts values = some elems → ∀ e ∈ values, e = .null ∨ ∃ c, some c ∈ elems ∧ e = c.value := by
  intro values
  induction values with
  | nil => exact fun _ _ he => by cases he
  | cons v values ih =>
    intro elems h e he
    by_cases hnull : v = .null
    · subst hnull
      obtain ⟨rest, hrest, rfl⟩ := Option.map_eq_some_iff.mp h
      cases he with
      | head => exact .inl rfl
      | tail _ he => exact (ih hrest e he).imp_right fun ⟨c, hc, heq⟩ => ⟨c, .tail _ hc, heq⟩
    · have h : (do
          let c ← ProverConst.fromValue v
          let cs ← proverConsts values
          return some c :: cs) = some elems := by
        cases v <;> first | exact absurd rfl hnull | exact h
      obtain ⟨c, hc, h⟩ := Option.bind_eq_some_iff.mp h
      obtain ⟨rest, hrest, h⟩ := Option.bind_eq_some_iff.mp h
      cases h
      cases he with
      | head => exact .inr ⟨c, .head _, fromValue_eq_some hc⟩
      | tail _ he => exact (ih hrest e he).imp_right fun ⟨d, hd, heq⟩ => ⟨d, .tail _ hd, heq⟩

/-- An `ANY` that is TRUE is TRUE of an element. -/
theorem quantifiedMembership_any {op : CmpOp} {rowWise : Bool} {coll : Option Table} {x : Value} :
    ∀ {elements : List Value} {anyNull : Bool},
      quantifiedMembership op false rowWise coll x elements anyNull = .ok (.bool true) →
      ∃ e ∈ elements, elementCmp3 op rowWise coll x e = .ok .true := by
  intro elements
  induction elements with
  | nil =>
    intro anyNull h
    cases anyNull <;> cases h
  | cons e elements ih =>
    intro anyNull h
    rw [quantifiedMembership] at h
    obtain ⟨tv, htv, h⟩ := bind_eq_ok.mp h
    cases tv with
    | true => exact ⟨e, .head _, htv⟩
    | false =>
      obtain ⟨e', he', htrue⟩ := ih h
      exact ⟨e', .tail _ he', htrue⟩
    | unknown =>
      obtain ⟨e', he', htrue⟩ := ih h
      exact ⟨e', .tail _ he', htrue⟩

theorem quantifiedCmp3_null (x : Value) : quantifiedCmp3 .eq x .null ≠ .true := by
  cases x <;> simp [quantifiedCmp3, rowCmp3, Value.eq3, Value.flatEq3, numericCmp]

theorem quantifiedCmp3_const {x : Value} {c : ProverConst} (h : quantifiedCmp3 .eq x c.value = .true) :
    rowCmp3 .eq x c.value = .true := by
  cases x with
  | composite fields => cases c <;> cases h
  | _ => cases c <;> exact h

omit [DecidableEq φ] in
theorem evalAll_of_constValues : ∀ {elems : List (RExpr φ ω)} {values : List Value},
    constValues elems = some values → (evalAll E row elems).mapM id = .ok values := by
  intro elems
  induction elems with
  | nil =>
    intro values h
    cases h
    rfl
  | cons e elems ih =>
    intro values h
    cases e <;> simp only [constValues, reduceCtorEq] at h
    obtain ⟨rest, hrest, rfl⟩ := Option.map_eq_some_iff.mp h
    simp only [evalAll, eval, List.mapM_cons, id, ih hrest]
    rfl

omit [DecidableEq φ] in
/-- The arms of `any_array_premise`. -/
theorem anyArrayPremise_eq_some {w operand : RExpr φ ω} {elems : List (Option ProverConst)}
    {cOrder : Bool} (h : anyArrayPremise w = some (operand, elems, cOrder)) :
    ∃ array collation values, w = .quantified .eq false false operand array collation ∧
      cOrder = collation.isNone ∧ proverConsts values = some elems ∧
      ∀ E row, ∃ dims lbounds, eval E row array = .ok (.array dims lbounds values) := by
  unfold anyArrayPremise at h
  split at h
  · rename_i lhs dims lbounds values collation
    split at h
    · cases h
    · obtain ⟨cs, hcs, h⟩ := Option.map_eq_some_iff.mp h
      cases h
      exact ⟨_, _, _, rfl, rfl, hcs, fun _ _ => ⟨_, _, rfl⟩⟩
  · rename_i lhs es collation
    split at h
    · cases h
    · obtain ⟨values, hvalues, h⟩ := Option.bind_eq_some_iff.mp h
      obtain ⟨cs, hcs, h⟩ := Option.bind_eq_some_iff.mp h
      cases h
      refine ⟨_, _, _, rfl, rfl, hcs, fun E row => ?_⟩
      simp only [eval, evalAll_of_constValues hvalues]
      cases values with
      | nil => exact ⟨_, _, rfl⟩
      | cons v values => exact ⟨_, _, rfl⟩
  · cases h

omit [DecidableEq φ] in
/-- An `ANY` over constants that is TRUE is the premise of an element. -/
theorem anyArrayPremise_holds {w operand : RExpr φ ω} {elems : List (Option ProverConst)}
    {cOrder : Bool} (h : anyArrayPremise w = some (operand, elems, cOrder))
    (hw : eval E row w = .ok (.bool true)) :
    ∃ c, some c ∈ elems ∧ Premise.Holds E row ⟨operand, .eq, c, cOrder⟩ := by
  obtain ⟨array, collation, values, rfl, -, hconsts, harray⟩ := anyArrayPremise_eq_some h
  simp only [eval] at hw
  obtain ⟨x, hx, hw⟩ := bind_eq_ok.mp hw
  obtain ⟨dims, lbounds, harray⟩ := harray E row
  rw [harray] at hw
  obtain ⟨e, he, htrue⟩ := quantifiedMembership_any hw
  have hplain : quantifiedCmp3 .eq x e = .true := by
    cases collation <;> exact Except.ok.inj htrue
  cases mem_proverConsts hconsts e he with
  | inl hnull =>
    rw [hnull] at hplain
    exact absurd hplain (quantifiedCmp3_null x)
  | inr hconst =>
    obtain ⟨c, hc, rfl⟩ := hconst
    have heq := quantifiedCmp3_const hplain
    exact ⟨c, hc, x, hx, isNullTest_of_ofOrder ((rowCmp3_const _ x c).symm.trans heq), fun _ => heq⟩

/-- `clause_implies` on a clause that is neither AND nor OR. -/
theorem leafImplies_forced (hE : E.Congruent) {w p : RExpr φ ω} {orArm : Prover}
    (hw : eval E row w = .ok (.bool true)) (hor : orArm.Succeeds → Forced E (shifted offset row) p)
    (h : (leafImplies offset w p orArm).Succeeds) : Forced E (shifted offset row) p := by
  unfold leafImplies at h
  split at h
  · rename_i operand elems cOrder harray
    obtain ⟨c, hc, hpremise⟩ := anyArrayPremise_holds harray hw
    exact atomImplies_forced hE hpremise (elementsImply_succeeds h c hc)
  · cases h.of_either with
    | inl h => exact hor h
    | inr h =>
      split at h
      · rename_i premise hpremise
        exact atomImplies_forced hE (comparisonAtom_holds hpremise hw) h
      · cases h.of_answer

/-- What a clause implies. -/
theorem clauseImplies_forced (hE : E.Congruent) (w p : RExpr φ ω)
    (hw : eval E row w = .ok (.bool true)) (h : (clauseImplies offset w p).Succeeds) :
    Forced E (shifted offset row) p := by
  unfold clauseImplies at h
  have h := h.of_ticked
  split at h
  case isTrue heq => exact forced_of_eqShifted hE heq hw
  case isFalse =>
    split at h
    · obtain ⟨ha, hb⟩ := h.of_both
      exact ⟨clauseImplies_forced hE w _ hw ha, clauseImplies_forced hE w _ hw hb⟩
    · split at h
      · obtain ⟨ha, hb⟩ := h.of_both
        cases eval_or_true hw with
        | inl hw => exact clauseImplies_forced hE _ p hw ha
        | inr hw => exact clauseImplies_forced hE _ p hw hb
      · obtain ⟨hwa, hwb⟩ := eval_and_true hw
        cases h.of_either with
        | inl h => exact clauseImplies_forced hE _ p hwa h
        | inr h => exact clauseImplies_forced hE _ p hwb h
      · refine leafImplies_forced hE hw (fun h => ?_) h
        split at h
        · cases h.of_either with
          | inl h => exact forced_or (.inl (clauseImplies_forced hE w _ hw h))
          | inr h => exact forced_or (.inr (clauseImplies_forced hE w _ hw h))
        · cases h.of_answer
termination_by sizeOf w + sizeOf p

theorem someClauseImplies_succeeds {p : RExpr φ ω} : ∀ {ws : List (RExpr φ ω)},
    (someClauseImplies offset p ws).Succeeds → ∃ w ∈ ws, (clauseImplies offset w p).Succeeds := by
  intro ws
  induction ws with
  | nil => exact fun h => by cases h.of_answer
  | cons w ws ih =>
    intro h
    cases h.of_either with
    | inl h => exact ⟨w, .head _, h⟩
    | inr h =>
      obtain ⟨w', hw', h⟩ := ih h
      exact ⟨w', .tail _ hw', h⟩

theorem someClauseImplies_forced (hE : E.Congruent) {ws : List (RExpr φ ω)} {p : RExpr φ ω}
    (hws : ∀ w ∈ ws, eval E row w = .ok (.bool true)) (h : (someClauseImplies offset p ws).Succeeds) :
    Forced E (shifted offset row) p := by
  obtain ⟨w, hw, h⟩ := someClauseImplies_succeeds h
  exact clauseImplies_forced hE w p (hws w hw) h

/-- What the conjuncts of the filters imply. -/
theorem impliedByConjuncts_forced (hE : E.Congruent) {ws : List (RExpr φ ω)}
    (hws : ∀ w ∈ ws, eval E row w = .ok (.bool true)) (p : RExpr φ ω)
    (h : (impliedByConjuncts offset ws p).Succeeds) : Forced E (shifted offset row) p := by
  unfold impliedByConjuncts at h
  have h := h.of_ticked
  split at h
  · obtain ⟨ha, hb⟩ := h.of_both
    exact ⟨impliedByConjuncts_forced hE hws _ ha, impliedByConjuncts_forced hE hws _ hb⟩
  · cases h.of_either with
    | inl h => exact someClauseImplies_forced hE hws h
    | inr h =>
      split at h
      · cases h.of_either with
        | inl h => exact forced_or (.inl (impliedByConjuncts_forced hE hws _ h))
        | inr h => exact forced_or (.inr (impliedByConjuncts_forced hE hws _ h))
      · cases h.of_answer
termination_by sizeOf p

omit [DecidableEq φ] in
/-- The conjuncts of a filter that keeps a row are TRUE on it. -/
theorem evalFilter_conjuncts : ∀ {f : RExpr φ ω}, evalFilter E row f = .ok true →
    ∀ w ∈ flattenAnd f, eval E row w = .ok (.bool true)
  | .and l r, h, w, hw => by
    simp only [evalFilter] at h
    obtain ⟨b, hb, h⟩ := bind_eq_ok.mp h
    cases b with
    | false => cases h
    | true =>
      cases List.mem_append.mp hw with
      | inl hw => exact evalFilter_conjuncts hb w hw
      | inr hw => exact evalFilter_conjuncts h w hw
  | .column _, h, w, hw | .const _, h, w, hw | .array .., h, w, hw | .or .., h, w, hw | .not _, h, w, hw
  | .compare .., h, w, hw | .isNull .., h, w, hw | .quantified .., h, w, hw | .matches .., h, w, hw
  | .node .., h, w, hw | .other .., h, w, hw => by
    obtain ⟨v, hv, h⟩ := bind_eq_ok.mp h
    cases List.mem_singleton.mp hw
    rw [hv, isTrue_iff.mp (Except.ok.inj h)]

theorem filtersImplyPredicate_forced (hE : E.Congruent) {filters : List (RExpr φ ω)} {pred : RExpr φ ω}
    (h : filtersImplyPredicate offset filters pred = true)
    (hfilters : ∀ f ∈ filters, evalFilter E row f = .ok true) :
    Forced E (shifted offset row) pred := by
  refine impliedByConjuncts_forced hE (fun w hw => ?_) pred ⟨implicationStepBudget, h⟩
  obtain ⟨f, hf, hw⟩ := List.mem_flatMap.mp hw
  exact evalFilter_conjuncts (hfilters f hf) w hw

end Jed.Implies
