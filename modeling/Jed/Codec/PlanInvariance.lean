import Jed.Codec.PlanPasses
import Mathlib.Data.List.Forall2

/-!
# The plan is of the logical values

A deferred value is planned as the resident one is: its stored form says what came of the attempt to
compress it, in a record with another key and other values. It says so as long as its lengths do,
which are counted in 32 bits.
-/

namespace Jed.Codec

open Key PMap Results

variable {ct : ColType}

theorem fixedValueWidth_spillable (h : isSpillable ct = true) :
    fixedValueWidth ct = none := by
  cases ct with
  | scalar s => cases s <;> first | rfl | cases h
  | composite | array | range => rfl

/-- A payload is what the inline form holds behind its header. -/
def Behind (ct : ColType) (inline payload : Bytes) : Prop :=
  inline.length = payload.length + inlineHeaderLen ct ∧ payload = inline.drop (inlineHeaderLen ct)

theorem behind_string {ty : ScalarType} (h : ty = .text ∨ ty = .bytea ∨ ty = .json) (s : Bytes) :
    Behind (.scalar ty) (0x00 :: encodeString s) s := by
  have hheader : inlineHeaderLen (.scalar ty) = 3 := if_pos h
  have hlen := beBytes_length 2 s.length
  unfold Behind encodeString
  rw [hheader, List.length_cons, List.length_append, hlen]
  refine ⟨by omega, ?_⟩
  exact (List.drop_left' hlen).symm

variable {v : Value} {inline payload : Bytes}

theorem behind_tag (h : inlineHeaderLen ct = 1)
    (hinline : encodeValue ct v = .ok inline) (hpayload : (encodeValue ct v).map (·.drop 1) = .ok payload)
    (hne : inline ≠ []) : Behind ct inline payload := by
  rw [hinline] at hpayload
  cases hpayload
  unfold Behind
  rw [h, List.length_drop]
  have := List.length_pos_iff.mpr hne
  exact ⟨by omega, rfl⟩

theorem encodeValue_behind (h : Storable ct v)
    (hspill : isSpillable ct = true) (hinline : encodeValue ct v = .ok inline)
    (hpayload : valuePayload ct v = .ok payload) : Behind ct inline payload := by
  cases ct with
  | scalar ty =>
    cases h with
    | json h =>
      cases hinline
      cases hpayload
      exact behind_string (.inr (.inr rfl)) _
    | jsonb h =>
      cases hinline
      cases hpayload
      exact ⟨rfl, rfl⟩
    | keyed h hutf8 =>
      cases h <;> try exact absurd hspill (by decide)
      · cases hinline
        cases hpayload
        exact behind_string (.inl rfl) _
      · cases hinline
        cases hpayload
        exact ⟨rfl, rfl⟩
      · cases hinline
        cases hpayload
        exact behind_string (.inr (.inl rfl)) _
  | composite fields =>
    cases v <;> try exact h.elim
    apply behind_tag rfl hinline hpayload
    rintro rfl
    rw [encodeValue] at hinline
    obtain ⟨bodies, -, hinline⟩ := bind_eq_ok.mp hinline
    cases hinline
  | array elem =>
    cases v <;> try exact h.elim
    apply behind_tag rfl hinline hpayload
    rintro rfl
    rw [encodeValue] at hinline
    obtain ⟨body, -, hinline⟩ := map_eq_ok.mp hinline
    cases hinline
  | range elem =>
    cases elem <;> try exact h.elim
    cases v <;> try exact h.elim
    apply behind_tag rfl hinline hpayload
    rintro rfl
    rw [encodeValue] at hinline
    obtain ⟨body, -, hinline⟩ := map_eq_ok.mp hinline
    cases hinline

/-- The inline form and the payload of a value that a column stores. -/
structure Known (ct : ColType) (v : Value) (inline payload : Bytes) : Prop where
  encoded : encodeValue ct v = .ok inline
  content : valuePayload ct v = .ok payload
  behind : Behind ct inline payload

theorem columnFacts_spillable (h : isSpillable ct = true) (s : Stored) :
    columnFacts (ct, s) = valueFacts ct s := by
  unfold columnFacts
  rw [fixedValueWidth_spillable h]

theorem isNull_of_storable (h : Storable ct v) : isNull v = false := by
  rw [← Bool.not_eq_true, isNull_iff]
  exact h.ne_null

theorem known_of_facts {f : ℕ × ℕ} (h : Storable ct v)
    (hspill : isSpillable ct = true) (hf : columnFacts (ct, .value v) = .ok f) :
    ∃ inline payload, Known ct v inline payload ∧
      f = (payload.length + inlineHeaderLen ct, payload.length) := by
  rw [columnFacts_spillable hspill, valueFacts, isNull_of_storable h, if_neg Bool.false_ne_true] at hf
  obtain ⟨inline, hinline, hf⟩ := bind_eq_ok.mp hf
  rw [if_pos hspill] at hf
  obtain ⟨payload, hpayload, hf⟩ := bind_eq_ok.mp hf
  cases hf
  have hbehind := encodeValue_behind h hspill hinline hpayload
  exact ⟨inline, payload, ⟨hinline, hpayload, hbehind⟩, by rw [hbehind.1]⟩

theorem Known.facts
    (hknown : Known ct v inline payload) (hst : Storable ct v) (hspill : isSpillable ct = true) :
    columnFacts (ct, .value v) = .ok (payload.length + inlineHeaderLen ct, payload.length) := by
  rw [columnFacts_spillable hspill, valueFacts, isNull_of_storable hst, if_neg Bool.false_ne_true,
    hknown.encoded]
  show (if isSpillable ct = true then valuePayload ct v >>= fun payload =>
    Except.ok (inline.length, payload.length) else Except.ok (inline.length, 0)) = _
  rw [if_pos hspill, hknown.content, ← hknown.behind.1]
  rfl

theorem attempt_value (h : valuePayload ct v = .ok payload) :
    attempt ct (.value v) = .ok (some (.owned (Lz4.compress payload))) := by
  show (valuePayload ct v).map _ = _
  rw [h]
  rfl

/-- What a plan of columns works with. -/
def inlineOf (facts : List (ℕ × ℕ)) (i : ℕ) : ℕ := (facts.map Prod.fst).getD i 0

def lenOf (cols : List (ColType × Stored)) (facts : List (ℕ × ℕ)) (i : ℕ) : ℕ :=
  (List.zipWith spillLen cols facts).getD i 0

def attemptOf (cols : List (ColType × Stored)) (i : ℕ) : Except Failure (Option CompBlock) :=
  ((cols[i]?).map fun c => attempt c.1 c.2).getD (.error .panic)

def startOf (keyLen : ℕ) (facts : List (ℕ × ℕ)) : Planning :=
  ⟨fun _ => .inline, inlineOf facts, keyLen + (facts.map Prod.fst).sum, 0, 0⟩

def passesOf (cols : List (ColType × Stored)) (keyLen : ℕ) (cap : Cap) (facts : List (ℕ × ℕ))
    (attempt : ℕ → Except Failure (Option CompBlock)) : Except Failure Planning :=
  runPasses cols.length (inlineOf facts) (lenOf cols facts)
    (fun i => (cols.map (isSpillable ·.1)).getD i false) attempt cap (recordMax cap.c cols.length)
    (startOf keyLen facts)

/-- A plan of columns, what it was made from, and how the passes ended. -/
structure PlanOf (cols : List (ColType × Stored)) (keyLen : ℕ) (cap : Cap) (facts : List (ℕ × ℕ))
    (t : Planning) (plan : RecordPlan) : Prop where
  known : cols.mapM columnFacts = .ok facts
  run : passesOf cols keyLen cap facts (attemptOf cols) = .ok t
  made : plan = ⟨(List.range cols.length).map t.disp, t.size, t.compressUnits, t.external,
    List.zipWith spillLen cols facts⟩

variable {plan : RecordPlan}

theorem planDispositions_ok {colTypes : List ColType} {key : Bytes} {row : List Stored} {cap : Cap}
    (h : planDispositions colTypes key row cap = .ok plan) :
    ∃ facts t, PlanOf (colTypes.zip row) key.length cap facts t plan := by
  obtain ⟨facts, hfacts, h⟩ := bind_eq_ok.mp h
  obtain ⟨t, ht, h⟩ := bind_eq_ok.mp h
  cases h
  exact ⟨facts, t, hfacts, ht, rfl⟩

/-- What a form says of the payload of the value that has it. -/
def TellsOf (ct : ColType) (payload : Bytes) : PlanDisp → Prop
  | .inline => True
  | .external => S_COMPRESS ≤ payload.length →
    ¬INLINE_COMP_OVERHEAD + (Lz4.compress payload).length < payload.length + inlineHeaderLen ct
  | .inlineComp comp | .externalComp comp => comp = .owned (Lz4.compress payload) ∧
    INLINE_COMP_OVERHEAD + (Lz4.compress payload).length < payload.length + inlineHeaderLen ct

variable {i : ℕ}

theorem getD_of_getElem? {α : Type} {l : List α} {a d : α} (h : l[i]? = some a) :
    l.getD i d = a := by
  rw [List.getD_eq_getElem?_getD, h]
  rfl

theorem exists_of_forall₂ {α β : Type} {R : α → β → Prop} {l : List α} {l' : List β}
    (h : List.Forall₂ R l l') {a : α} (ha : l[i]? = some a) : ∃ b, l'[i]? = some b ∧ R a b := by
  induction h generalizing i with
  | nil => cases ha
  | cons hab _ ih =>
    cases i with
    | zero =>
      cases ha
      exact ⟨_, rfl, hab⟩
    | succ i => exact ih ha

/-- A record's plan stores a value in a form. -/
def Stores (cap : Cap) (ct : ColType) (v : Value) (disp : PlanDisp) : Prop :=
  ∃ (colTypes : List ColType) (key : Bytes) (row : List Stored) (plan : RecordPlan) (i : ℕ),
    planDispositions colTypes key row cap = .ok plan ∧
      (colTypes.zip row)[i]? = some (ct, .value v) ∧ plan.disp[i]? = some disp

/-- The facts and the payload length of a column that stores a value. -/
theorem PlanOf.column {cols : List (ColType × Stored)} {keyLen : ℕ} {cap : Cap}
    {facts : List (ℕ × ℕ)} {t : Planning} (hof : PlanOf cols keyLen cap facts t plan)
    (hcol : cols[i]? = some (ct, .value v)) (hst : Storable ct v)
    (hspill : isSpillable ct = true) :
    ∃ inline payload, Known ct v inline payload ∧
      inlineOf facts i = payload.length + inlineHeaderLen ct ∧ lenOf cols facts i = payload.length ∧
      attemptOf cols i = .ok (some (.owned (Lz4.compress payload))) := by
  obtain ⟨f, hget, hf⟩ := exists_of_forall₂ (forall₂_of_mapM hof.known) hcol
  obtain ⟨inline, payload, hknown, rfl⟩ := known_of_facts hst hspill hf
  refine ⟨inline, payload, hknown, ?_, ?_, ?_⟩
  · exact getD_of_getElem? (by rw [List.getElem?_map, hget]; rfl)
  · apply getD_of_getElem?
    rw [List.getElem?_zipWith, hcol, hget]
    show some (if (isSpillable ct && !isNull v) = true then payload.length else 0) = _
    rw [hspill, isNull_of_storable hst]
    rfl
  · rw [attemptOf, hcol]
    exact attempt_value hknown.content

variable {disp : PlanDisp}

theorem Stores.tells {cap : Cap}
    (h : Stores cap ct v disp) (hst : Storable ct v) (hspill : isSpillable ct = true) :
    ∃ inline payload, Known ct v inline payload ∧ TellsOf ct payload disp := by
  obtain ⟨colTypes, key, row, plan, i, hplan, hcol, hdisp⟩ := h
  obtain ⟨facts, t, hof⟩ := planDispositions_ok hplan
  obtain ⟨inline, payload, hknown, hinline, hlen, hattempt⟩ := hof.column hcol hst hspill
  refine ⟨inline, payload, hknown, ?_⟩
  have hlt : i < (colTypes.zip row).length := (List.getElem?_eq_some_iff.mp hcol).1
  have htells := runPasses_tells hof.run (fun _ => rfl) hlt
  rw [hof.made, List.getElem?_map, List.getElem?_range hlt] at hdisp
  have hd : t.disp i = disp := Option.some.inj hdisp
  rw [hd] at htells
  cases disp with
  | inline => trivial
  | external =>
    intro hlarge hshort
    have hrejected : outcome (inlineOf facts i) (attemptOf _ i) = .ok none := htells (by rwa [hlen])
    rw [hinline, hattempt] at hrejected
    change Except.ok ((some (Lz4.compress payload).length).filter _) = _ at hrejected
    rw [Option.filter_some, if_pos (by rwa [decide_eq_true_eq])] at hrejected
    cases hrejected
  | inlineComp comp | externalComp comp =>
    obtain ⟨hcomp, hshort⟩ : attemptOf _ i = .ok (some comp) ∧
      INLINE_COMP_OVERHEAD + comp.len < inlineOf facts i := htells
    rw [hattempt] at hcomp
    cases hcomp
    rw [hinline] at hshort
    exact ⟨rfl, hshort⟩

/-- The reference a stored value is deferred to: its bytes, or the lengths that are written of it, in
    32 bits. -/
inductive DefersTo (ct : ColType) (v : Value) : PlanDisp → Unfetched → Prop where
  | inline {body : Bytes} (h : encodeValue ct v = .ok (0x00 :: body)) :
      DefersTo ct v .inline (.inline body)
  | external {payload : Bytes} (first : PageRef) (h : valuePayload ct v = .ok payload) :
      DefersTo ct v .external (.external first (payload.length % 2 ^ 32))
  | inlineComp {payload comp : Bytes} (h : valuePayload ct v = .ok payload) :
      DefersTo ct v (.inlineComp (.owned comp)) (.inlineComp comp (payload.length % 2 ^ 32))
  | externalComp {payload comp : Bytes} (first : PageRef) (h : valuePayload ct v = .ok payload) :
      DefersTo ct v (.externalComp (.owned comp))
        (.externalComp first (comp.length % 2 ^ 32) (payload.length % 2 ^ 32))

/-- A reference under which a record's plan stored the value. -/
def Reference (cap : Cap) (ct : ColType) (v : Value) (u : Unfetched) : Prop :=
  ∃ disp, Stores cap ct v disp ∧ DefersTo ct v disp u

/-- A form that the lengths stand for. -/
def Unfetched.isLarge : Unfetched → Bool
  | .inline _ => false
  | _ => true

variable {u : Unfetched}

theorem DefersTo.payloadLen
    (h : DefersTo ct v disp u) (hknown : Known ct v inline payload) :
    u.payloadLen ct = if u.isLarge then payload.length % 2 ^ 32 else payload.length := by
  have hcontent := hknown.content
  cases h with
  | inline h =>
    have hencoded := hknown.encoded
    rw [h] at hencoded
    cases hencoded
    have hlen := hknown.behind.1
    rw [List.length_cons] at hlen
    show 1 + _ - _ = payload.length
    omega
  | external first h | inlineComp h | externalComp first h =>
    rw [h] at hcontent
    cases hcontent
    rfl

/-- It says what an attempt would end with. -/
theorem DefersTo.outcome
    (h : DefersTo ct v disp u) (hknown : Known ct v inline payload)
    (htells : TellsOf ct payload disp) (hcounted : u.isLarge = true → payload.length < 2 ^ 32)
    (hlarge : S_COMPRESS ≤ payload.length) :
    Codec.outcome (payload.length + inlineHeaderLen ct) (attempt ct (.value v))
      = Codec.outcome (payload.length + inlineHeaderLen ct) (attempt ct (.unfetched u)) := by
  rw [attempt_value hknown.content]
  have hcontent := hknown.content
  cases h with
  | inline h =>
    rename_i body
    have hencoded := hknown.encoded
    rw [h] at hencoded
    cases hencoded
    have hheader : 1 ≤ inlineHeaderLen ct := by
      unfold inlineHeaderLen
      split
      · split <;> decide
      · decide
    have hpayload : body.drop (min (inlineHeaderLen ct - 1) body.length) = payload := by
      have hbehind := hknown.behind
      obtain ⟨k, hk⟩ : ∃ k, inlineHeaderLen ct = k + 1 := ⟨_, (Nat.sub_add_cancel hheader).symm⟩
      rw [Behind, hk, List.length_cons] at hbehind
      rw [hk, Nat.add_sub_cancel, Nat.min_eq_left (by omega)]
      exact hbehind.2.symm
    show _ = Codec.outcome _ (Except.ok (some (CompBlock.owned (Lz4.compress (body.drop _)))))
    rw [hpayload]
  | external first h =>
    show Except.ok ((some (Lz4.compress payload).length).filter _) = Except.ok none
    rw [Option.filter_some, if_neg (by rw [decide_eq_true_eq]; exact htells hlarge)]
  | inlineComp h =>
    cases htells.1
    rfl
  | externalComp first h =>
    rw [h] at hcontent
    cases hcontent
    obtain ⟨hcomp, hshort⟩ := htells
    cases hcomp
    have hlt := hcounted rfl
    have hheader : inlineHeaderLen ct ≤ 3 := by
      unfold inlineHeaderLen
      split
      · split <;> decide
      · decide
    have hmod : (Lz4.compress payload).length % 2 ^ 32 = (Lz4.compress payload).length := by
      unfold INLINE_COMP_OVERHEAD at hshort
      exact Nat.mod_eq_of_lt (by omega)
    show _ = Codec.outcome _ (Except.ok (some (CompBlock.onChain _)))
    rw [hmod]
    rfl

/-- A column of a row, and what stands for it: itself, or a reference to its value. -/
inductive Replaced (cap : Cap) : ColType × Stored → ColType × Stored → Prop where
  | kept (c : ColType × Stored) : Replaced cap c c
  | deferred {ct : ColType} {v : Value} {u : Unfetched} (hst : Storable ct v)
      (hspill : isSpillable ct = true) (href : Reference cap ct v u) :
      Replaced cap (ct, .value v) (ct, .unfetched u)

/-- The lengths of a reference are its value's. -/
def Counted (c c' : ColType × Stored) : Prop :=
  ∀ v u payload, c.2 = .value v → c'.2 = .unfetched u → u.isLarge = true →
    valuePayload c.1 v = .ok payload → payload.length < 2 ^ 32

/-- What is known of a reference. -/
theorem Reference.known {cap : Cap}
    (href : Reference cap ct v u) (hst : Storable ct v) (hspill : isSpillable ct = true) :
    ∃ inline payload, Known ct v inline payload ∧
      columnFacts (ct, .value v) = .ok (payload.length + inlineHeaderLen ct, payload.length) ∧
      columnFacts (ct, .unfetched u) = .ok (u.payloadLen ct + inlineHeaderLen ct, u.payloadLen ct) ∧
      u.payloadLen ct = (if u.isLarge then payload.length % 2 ^ 32 else payload.length) ∧
      ((u.isLarge = true → payload.length < 2 ^ 32) → S_COMPRESS ≤ payload.length →
        outcome (payload.length + inlineHeaderLen ct) (attempt ct (.value v))
          = outcome (payload.length + inlineHeaderLen ct) (attempt ct (.unfetched u))) := by
  obtain ⟨disp, hstores, hdefers⟩ := href
  obtain ⟨inline, payload, hknown, htells⟩ := hstores.tells hst hspill
  exact ⟨inline, payload, hknown, hknown.facts hst hspill, columnFacts_spillable hspill _,
    hdefers.payloadLen hknown, hdefers.outcome hknown htells⟩

/-- Two plans are the same: the form of every column and the length of its block, the size, the bytes
    on chains and the attempts made. -/
structure SamePlan (p q : RecordPlan) : Prop where
  disp : p.disp.map PlanDisp.shape = q.disp.map PlanDisp.shape
  size : p.size = q.size
  external : p.external = q.external
  compressUnits : p.compressUnits = q.compressUnits

theorem mapM_congr_of_forall₂ {ε α β : Type} {f : α → Except ε β} {l l' : List α}
    (h : List.Forall₂ (fun a a' => f a = f a') l l') : l.mapM f = l'.mapM f := by
  induction h with
  | nil => rfl
  | cons hab _ ih => rw [List.mapM_cons, List.mapM_cons, hab, ih]

theorem map_congr_of_forall₂ {α β : Type} {f : α → β} {l l' : List α}
    (h : List.Forall₂ (fun a a' => f a = f a') l l') : l.map f = l'.map f := by
  induction h with
  | nil => rfl
  | cons hab _ ih => rw [List.map_cons, List.map_cons, hab, ih]

theorem zipWith_congr_of_forall₂ {α β γ : Type} {f : α → β → γ} {l l' : List α}
    (h : List.Forall₂ (fun a a' => f a = f a') l l') (m : List β) :
    List.zipWith f l m = List.zipWith f l' m := by
  induction h generalizing m with
  | nil => rfl
  | cons hab _ ih =>
    cases m with
    | nil => rfl
    | cons b m => rw [List.zipWith_cons_cons, List.zipWith_cons_cons, hab, ih]

theorem forall₂_both {α β : Type} {R S : α → β → Prop} {l : List α} {l' : List β}
    (hR : List.Forall₂ R l l') (hS : List.Forall₂ S l l') :
    List.Forall₂ (fun a b => R a b ∧ S a b) l l' := by
  induction hR with
  | nil => exact .nil
  | cons hab _ ih =>
    cases hS with
    | cons hab' hS => exact .cons ⟨hab, hab'⟩ (ih hS)

section Replacement

variable {cap : Cap} {cols cols' : List (ColType × Stored)} {keyLen : ℕ}

variable {c c' : ColType × Stored}

theorem Replaced.type (h : Replaced cap c c') : c.1 = c'.1 := by
  cases h <;> rfl

theorem Replaced.spillLen (h : Replaced cap c c') :
    Codec.spillLen c = Codec.spillLen c' := by
  cases h with
  | kept => rfl
  | deferred hst hspill href =>
    funext facts
    show (if (isSpillable _ && !isNull _) = true then _ else _) = _
    rw [isNull_of_storable hst]
    rfl

theorem Replaced.facts (h : Replaced cap c c') (hcounted : Counted c c') :
    columnFacts c = columnFacts c' := by
  cases h with
  | kept => rfl
  | deferred hst hspill href =>
    obtain ⟨inline, payload, hknown, hvalue, hunfetched, hlen, -⟩ := href.known hst hspill
    rw [hvalue, hunfetched, hlen]
    split
    · rename_i hlarge
      rw [Nat.mod_eq_of_lt (hcounted _ _ _ rfl rfl hlarge hknown.content)]
    · rfl

/-- An attempt on a reference whose lengths are counted ends as one on its value. -/
theorem outcome_replaced {facts : List (ℕ × ℕ)} {t : Planning} {plan : RecordPlan}
    (hof : PlanOf cols keyLen cap facts t plan) (hrow : List.Forall₂ (Replaced cap) cols cols')
    (hcounted : List.Forall₂ Counted cols cols') {i : ℕ} (hi : i < cols.length)
    (hlarge : S_COMPRESS ≤ lenOf cols facts i) :
    outcome (inlineOf facts i) (attemptOf cols i) = outcome (inlineOf facts i) (attemptOf cols' i) := by
  have hcol : cols[i]? = some cols[i] := List.getElem?_eq_getElem hi
  obtain ⟨c', hcol', hc⟩ := exists_of_forall₂ hrow hcol
  obtain ⟨c'', hcol'', hcount⟩ := exists_of_forall₂ hcounted hcol
  rw [hcol'] at hcol''
  cases hcol''
  generalize cols[i] = c at *
  cases hc with
  | kept => rw [attemptOf, attemptOf, hcol, hcol']
  | deferred hst hspill href =>
    obtain ⟨inline, payload, hknown, hinline, hlen, -⟩ := hof.column hcol hst hspill
    obtain ⟨inline', payload', hknown', -, -, -, hsame⟩ := href.known hst hspill
    have hpayload : payload' = payload := Except.ok.inj (hknown'.content.symm.trans hknown.content)
    subst hpayload
    rw [attemptOf, attemptOf, hcol, hcol', hinline]
    rw [hlen] at hlarge
    exact hsame (fun hu => hcount _ _ _ rfl rfl hu hknown.content) hlarge

/-- A row whose lengths are counted has the plan of the row it stands for. -/
theorem samePlan_of_counted {facts : List (ℕ × ℕ)} {t : Planning} {plan : RecordPlan}
    (hof : PlanOf cols keyLen cap facts t plan) (hrow : List.Forall₂ (Replaced cap) cols cols')
    (hcounted : List.Forall₂ Counted cols cols') :
    ∃ t' plan', PlanOf cols' keyLen cap facts t' plan' ∧ SamePlan plan' plan := by
  have hknown : cols'.mapM columnFacts = .ok facts := by
    rw [← mapM_congr_of_forall₂ ((forall₂_both hrow hcounted).imp fun _ _ h => h.1.facts h.2)]
    exact hof.known
  have hlen : List.zipWith spillLen cols' facts = List.zipWith spillLen cols facts :=
    (zipWith_congr_of_forall₂ (hrow.imp fun _ _ h => h.spillLen) facts).symm
  have htypes : cols'.map (isSpillable ·.1) = cols.map (isSpillable ·.1) := by
    exact (map_congr_of_forall₂ (hrow.imp fun _ _ h => by rw [h.type])).symm
  have hpasses : ∀ a, passesOf cols' keyLen cap facts a = passesOf cols keyLen cap facts a := by
    intro a
    unfold passesOf lenOf
    rw [hlen, htypes, hrow.length_eq]
  have hsame : (passesOf cols keyLen cap facts (attemptOf cols)).map Planning.shape
      = (passesOf cols keyLen cap facts (attemptOf cols')).map Planning.shape := by
    apply runPasses_congr
    intro i hi
    have hi := mem_compressCandidates.mp hi
    exact outcome_replaced hof hrow hcounted hi.1 hi.2
  rw [hof.run] at hsame
  obtain ⟨t', ht', hshape⟩ := map_eq_ok.mp hsame.symm
  refine ⟨t', _, ⟨hknown, (hpasses _).trans ht', rfl⟩, ?_⟩
  rw [hof.made]
  have hdisp : ∀ i, (t'.disp i).shape = (t.disp i).shape := fun i =>
    congrFun (congrArg Planning.disp hshape) i
  refine ⟨?_, ?_, ?_, ?_⟩
  · show ((List.range _).map t'.disp).map _ = ((List.range _).map t.disp).map _
    rw [List.map_map, List.map_map, hrow.length_eq]
    exact List.map_congr_left fun i _ => hdisp i
  · show t'.shape.size = t.shape.size
    rw [hshape]
  · show t'.shape.external = t.shape.external
    rw [hshape]
  · show t'.shape.compressUnits = t.shape.compressUnits
    rw [hshape]

end Replacement

end Jed.Codec
