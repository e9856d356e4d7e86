import Jed.Codec.PlanInvariance
import Mathlib.Algebra.BigOperators.Group.Finset.Piecewise
import Mathlib.Algebra.Order.BigOperators.Group.Finset

/-!
# Lengths that are cut

A reference to a payload of 4 GiB or more records what is left of its length in 32 bits, and the
record it is in is planned for that. The plan is another one then: it makes fewer attempts.
-/

namespace Jed.Codec

open Key PMap Results

section Attempts

variable {inline payloadLen : ℕ → ℕ} {attempt : ℕ → Except Failure (Option CompBlock)}
  {c max tag n keyLen : ℕ}

/-- The size of a record is that of its key and its columns. -/
def Planning.Adds (keyLen n : ℕ) (s : Planning) : Prop :=
  s.size = keyLen + ∑ j ∈ Finset.range n, s.cur j

variable {s : Planning} {k : ℕ}

theorem Planning.Adds.le (h : s.Adds keyLen n) (hk : k < n) :
    s.cur k ≤ s.size := by
  have := Finset.single_le_sum (f := s.cur) (fun _ _ => Nat.zero_le _) (Finset.mem_range.mpr hk)
  rw [Adds] at h
  omega

variable {i : ℕ}

theorem Planning.Adds.compress (h : s.Adds keyLen n) (hi : i < n)
    (comp : CompBlock) : (s.compress i comp).Adds keyLen n := by
  have hmem := Finset.mem_range.mpr hi
  have hsum := Finset.add_sum_erase _ s.cur hmem
  have hle := h.le hi
  rw [Adds] at h ⊢
  show s.size - s.cur i + INLINE_COMP_OVERHEAD + comp.len
    = keyLen + ∑ j ∈ Finset.range n, Function.update s.cur i (INLINE_COMP_OVERHEAD + comp.len) j
  rw [Finset.sum_update_of_mem hmem, Finset.sdiff_singleton_eq_erase]
  omega

theorem Planning.Adds.attempted (h : s.Adds keyLen n) (hi : i < n)
    (units inline : ℕ) (comp : Option CompBlock) : (s.attempted units inline i comp).Adds keyLen n := by
  unfold Planning.attempted
  cases comp with
  | none => exact h
  | some comp =>
    dsimp only
    split
    · exact Adds.compress (s := { s with compressUnits := s.compressUnits + units }) h hi comp
    · exact h

theorem Planning.attempted_compressUnits (s : Planning) (units inline i : ℕ)
    (comp : Option CompBlock) :
    (s.attempted units inline i comp).compressUnits = s.compressUnits + units := by
  unfold attempted
  cases comp with
  | none => rfl
  | some comp =>
    dsimp only
    split <;> rfl

/-- A column that is too large for a record, as it is and compressed, is so after an attempt. -/
theorem Planning.attempted_cur {units : ℕ} {comp : Option CompBlock} (hcomp : attempt i = .ok comp)
    (hblock : ∀ comp, attempt k = .ok (some comp) → max < INLINE_COMP_OVERHEAD + comp.len)
    (h : max < s.cur k) : max < (s.attempted units (inline i) i comp).cur k := by
  unfold attempted
  cases comp with
  | none => exact h
  | some comp =>
    dsimp only
    split
    · show max < Function.update s.cur i _ k
      by_cases hk : k = i
      · subst hk
        rw [Function.update_self]
        exact hblock comp hcomp
      · rw [Function.update_of_ne hk]
        exact h
    · exact h

variable {t : Planning} {cand : List ℕ}

/-- With such a column, every candidate is tried. -/
theorem compressPass_units
    (ht : compressPass inline payloadLen attempt c max cand s = .ok t) (hadds : s.Adds keyLen n)
    (hcand : ∀ i ∈ cand, i < n) (hk : k < n) (hcur : max < s.cur k)
    (hblock : ∀ comp, attempt k = .ok (some comp) → max < INLINE_COMP_OVERHEAD + comp.len) :
    t.compressUnits = s.compressUnits + (cand.map fun i => divCeil (payloadLen i) c).sum := by
  induction cand generalizing s with
  | nil =>
    cases ht
    rfl
  | cons i cand ih =>
    rw [compressPass_cons (not_le.mpr (hcur.trans_le (hadds.le hk)))] at ht
    obtain ⟨comp, hcomp, ht⟩ := bind_eq_ok.mp ht
    rw [ih ht (hadds.attempted (hcand i List.mem_cons_self) _ _ _)
      (fun j hj => hcand j (List.mem_cons_of_mem _ hj)) (Planning.attempted_cur hcomp hblock hcur),
      Planning.attempted_compressUnits, List.map_cons, List.sum_cons, Nat.add_assoc]

/-- Never more than all of them are. -/
theorem compressPass_units_le (ht : compressPass inline payloadLen attempt c max cand s = .ok t) :
    t.compressUnits ≤ s.compressUnits + (cand.map fun i => divCeil (payloadLen i) c).sum := by
  induction cand generalizing s with
  | nil =>
    cases ht
    exact le_rfl
  | cons i cand ih =>
    rw [List.map_cons, List.sum_cons]
    by_cases hfits : s.size ≤ max
    · rw [compressPass_done hfits] at ht
      cases ht
      omega
    · rw [compressPass_cons hfits] at ht
      obtain ⟨comp, hcomp, ht⟩ := bind_eq_ok.mp ht
      have := ih ht
      rw [Planning.attempted_compressUnits] at this
      omega

theorem externalizePass_compressUnits (cand : List ℕ) (s : Planning) :
    (externalizePass payloadLen tag max cand s).compressUnits = s.compressUnits := by
  induction cand generalizing s with
  | nil => rfl
  | cons i cand ih =>
    rw [externalizePass]
    split
    · rfl
    · rw [ih]
      rfl

/-- The units of all candidates. -/
def allUnits (n c : ℕ) (payloadLen : ℕ → ℕ) : ℕ :=
  ∑ i ∈ Finset.range n, if S_COMPRESS ≤ payloadLen i then divCeil (payloadLen i) c else 0

theorem sum_compressCandidates :
    ((compressCandidates n inline payloadLen).map fun i => divCeil (payloadLen i) c).sum
      = allUnits n c payloadLen := by
  have hnodup : (compressCandidates n inline payloadLen).Nodup :=
    (List.mergeSort_perm _ _).nodup_iff.mpr (List.nodup_range.filter _)
  have hset : (compressCandidates n inline payloadLen).toFinset
      = (Finset.range n).filter fun i => S_COMPRESS ≤ payloadLen i := by
    ext i
    rw [List.mem_toFinset, mem_compressCandidates, Finset.mem_filter, Finset.mem_range]
  rw [allUnits, ← Finset.sum_filter, ← hset, List.sum_toFinset _ hnodup]

theorem runPasses_units_le {spillable : ℕ → Bool} {cap : Cap}
    (ht : runPasses n inline payloadLen spillable attempt cap max s = .ok t) :
    t.compressUnits ≤ s.compressUnits + allUnits n cap.c payloadLen := by
  unfold runPasses at ht
  split at ht
  · cases ht
    exact Nat.le_add_right _ _
  · obtain ⟨s', hpass, ht⟩ := bind_eq_ok.mp ht
    have hle := compressPass_units_le hpass
    rw [sum_compressCandidates] at hle
    split at ht
    · cases ht
      exact hle
    · cases ht
      rw [externalizePass_compressUnits]
      exact hle

theorem runPasses_units {spillable : ℕ → Bool} {cap : Cap}
    (ht : runPasses n inline payloadLen spillable attempt cap max s = .ok t) (hadds : s.Adds keyLen n)
    (hk : k < n) (hcur : max < s.cur k)
    (hblock : ∀ comp, attempt k = .ok (some comp) → max < INLINE_COMP_OVERHEAD + comp.len) :
    t.compressUnits = s.compressUnits + allUnits n cap.c payloadLen := by
  unfold runPasses at ht
  rw [if_neg (not_le.mpr (hcur.trans_le (hadds.le hk)))] at ht
  obtain ⟨s', hpass, ht⟩ := bind_eq_ok.mp ht
  have hunits := compressPass_units hpass hadds (fun i hi => (mem_compressCandidates.mp hi).1) hk hcur
    hblock
  rw [sum_compressCandidates] at hunits
  split at ht
  · cases ht
    exact hunits
  · cases ht
    rw [externalizePass_compressUnits]
    exact hunits

/-- A payload that is shorter by 4 GiB takes fewer units. -/
theorem allUnits_lt {shorter : ℕ → ℕ} (hc : 0 < c ∧ c ≤ 2 ^ 32)
    (hle : ∀ i < n, shorter i ≤ payloadLen i) (hk : k < n)
    (hcut : shorter k + 2 ^ 32 ≤ payloadLen k) : allUnits n c shorter < allUnits n c payloadLen := by
  have hmono : ∀ {a b : ℕ}, a ≤ b → divCeil a c ≤ divCeil b c := by
    intro a b h
    unfold divCeil
    exact Nat.div_le_div_right (by omega)
  apply Finset.sum_lt_sum
  · intro i hi
    have := hle i (Finset.mem_range.mp hi)
    split
    · rw [if_pos (by omega)]
      exact hmono this
    · exact Nat.zero_le _
  · refine ⟨k, Finset.mem_range.mpr hk, ?_⟩
    have hmore : divCeil (shorter k) c + 1 ≤ divCeil (payloadLen k) c := by
      rw [divCeil, ← Nat.add_div_right _ hc.1, divCeil]
      exact Nat.div_le_div_right (by omega)
    have hlarge : S_COMPRESS ≤ payloadLen k := by
      unfold S_COMPRESS
      omega
    rw [if_pos hlarge]
    split
    · exact hmore
    · omega

end Attempts

section Cut

variable {cols cols' : List (ColType × Stored)} {keyLen : ℕ} {cap : Cap}

variable {facts : List (ℕ × ℕ)} {t : Planning} {plan : RecordPlan} {i : ℕ} {ct : ColType} {u : Unfetched}

theorem PlanOf.unfetched (hof : PlanOf cols keyLen cap facts t plan)
    (hcol : cols[i]? = some (ct, .unfetched u)) (hspill : isSpillable ct = true) :
    lenOf cols facts i = u.payloadLen ct := by
  obtain ⟨f, hget, hf⟩ := exists_of_forall₂ (forall₂_of_mapM hof.known) hcol
  rw [columnFacts_spillable hspill] at hf
  cases hf
  apply getD_of_getElem?
  rw [List.getElem?_zipWith, hcol, hget]
  show some (if (isSpillable ct && true) = true then u.payloadLen ct else 0) = _
  rw [hspill]
  rfl

/-- No length of a reference is more than its value's, and one that is cut is less by 4 GiB. -/
theorem lenOf_replaced {facts' : List (ℕ × ℕ)} {t' : Planning} {plan' : RecordPlan}
    (hof : PlanOf cols keyLen cap facts t plan) (hof' : PlanOf cols' keyLen cap facts' t' plan')
    (hrow : List.Forall₂ (Replaced cap) cols cols') (hi : i < cols.length) :
    lenOf cols' facts' i ≤ lenOf cols facts i ∧
      ∀ ct v u payload, cols[i]? = some (ct, .value v) → cols'[i]? = some (ct, .unfetched u) →
        u.isLarge = true → valuePayload ct v = .ok payload → 2 ^ 32 ≤ payload.length →
        lenOf cols' facts' i + 2 ^ 32 ≤ lenOf cols facts i := by
  have hcol : cols[i]? = some cols[i] := List.getElem?_eq_getElem hi
  obtain ⟨c', hcol', hc⟩ := exists_of_forall₂ hrow hcol
  generalize cols[i] = c at *
  cases hc with
  | kept =>
    constructor
    · apply le_of_eq
      obtain ⟨f, hget, hf⟩ := exists_of_forall₂ (forall₂_of_mapM hof.known) hcol
      obtain ⟨f', hget', hf'⟩ := exists_of_forall₂ (forall₂_of_mapM hof'.known) hcol'
      rw [hf] at hf'
      cases hf'
      have hlen : ∀ {l : List (ColType × Stored)} {m c f}, l[i]? = some c → m[i]? = some f →
          lenOf l m i = spillLen c f := by
        intro l m c f hl hm
        apply getD_of_getElem?
        rw [List.getElem?_zipWith, hl, hm]
      rw [hlen hcol hget, hlen hcol' hget']
    · intro ct v u payload h h'
      rw [hcol] at h
      rw [hcol'] at h'
      cases h
      cases h'
  | deferred hst hspill href =>
    obtain ⟨inline, payload, hknown, hinline, hlen, -⟩ := hof.column hcol hst hspill
    obtain ⟨inline', payload', hknown', -, -, hcut, -⟩ := href.known hst hspill
    have hpayload : payload' = payload := Except.ok.inj (hknown'.content.symm.trans hknown.content)
    subst hpayload
    have hlen' := hof'.unfetched hcol' hspill
    rw [hlen, hlen', hcut]
    constructor
    · split
      · exact Nat.mod_le _ _
      · exact le_rfl
    · intro ct v u payload h h' hlarge hcontent hlong
      rw [hcol] at h
      rw [hcol'] at h'
      cases h
      cases h'
      rw [hknown.content] at hcontent
      cases hcontent
      rw [if_pos hlarge]
      omega

theorem startOf_adds : (startOf keyLen facts).Adds keyLen facts.length := by
  show keyLen + (facts.map Prod.fst).sum = keyLen + ∑ j ∈ Finset.range facts.length, inlineOf facts j
  congr 1
  induction facts with
  | nil => rfl
  | cons f facts ih =>
    rw [List.map_cons, List.sum_cons, List.length_cons, Finset.sum_range_succ', ih, Nat.add_comm]
    rfl

/-- A row with a length that is cut has another plan than the row it stands for: fewer attempts. -/
theorem not_samePlan_of_cut {facts' : List (ℕ × ℕ)} {t' : Planning} {plan' : RecordPlan}
    (hcap : 0 < cap.c ∧ cap.c ≤ 2 ^ 16)
    (hof : PlanOf cols keyLen cap facts t plan) (hof' : PlanOf cols' keyLen cap facts' t' plan')
    (hrow : List.Forall₂ (Replaced cap) cols cols') {k : ℕ} {v : Value}
    {payload : Bytes} (hcol : cols[k]? = some (ct, .value v)) (hcol' : cols'[k]? = some (ct, .unfetched u))
    (hst : Storable ct v) (hspill : isSpillable ct = true) (hlarge : u.isLarge = true)
    (hpayload : valuePayload ct v = .ok payload) (hlong : 2 ^ 32 ≤ payload.length) :
    plan'.compressUnits < plan.compressUnits := by
  have hk : k < cols.length := (List.getElem?_eq_some_iff.mp hcol).1
  have hmax : recordMax cap.c cols.length ≤ 2 ^ 16 := by
    unfold recordMax
    omega
  obtain ⟨inline, payload', hknown, hinline, hlen, hattempt⟩ := hof.column hcol hst hspill
  have hsame : payload' = payload := Except.ok.inj (hknown.content.symm.trans hpayload)
  subst hsame
  have hfacts : facts.length = cols.length := (forall₂_of_mapM hof.known).length_eq.symm
  have hunits : t.compressUnits = 0 + allUnits cols.length cap.c (lenOf cols facts) := by
    apply runPasses_units hof.run (hfacts ▸ startOf_adds) hk
    · show recordMax cap.c cols.length < inlineOf facts k
      omega
    · intro comp hcomp
      rw [hattempt] at hcomp
      cases hcomp
      have := Lz4.le_compress payload'
      show _ < _ + (Lz4.compress payload').length
      omega
  have hunits' : t'.compressUnits ≤ 0 + allUnits cols'.length cap.c (lenOf cols' facts') :=
    runPasses_units_le hof'.run
  rw [← hrow.length_eq] at hunits'
  have hlt : allUnits cols.length cap.c (lenOf cols' facts')
      < allUnits cols.length cap.c (lenOf cols facts) :=
    allUnits_lt ⟨hcap.1, by omega⟩ (fun i hi => (lenOf_replaced hof hof' hrow hi).1) hk
      ((lenOf_replaced hof hof' hrow hk).2 ct v u payload' hcol hcol' hlarge hpayload hlong)
  rw [hof.made, hof'.made]
  show t'.compressUnits < t.compressUnits
  omega

end Cut

/-- What a row may hold of a column's value. -/
def Replaces (cap : Cap) (c : ColType × Value) (s : Stored) : Prop :=
  Replaced cap (c.1, .value c.2) (c.1, s)

theorem Replaces.plain {cap : Cap} {c : ColType × Value} {u : Unfetched}
    (h : Replaces cap c (.unfetched u)) : Storable c.1 c.2 ∧ isSpillable c.1 = true := by
  unfold Replaces at h
  cases h with
  | deferred hst hspill href => exact ⟨hst, hspill⟩

/-- A reference in a large form is to a payload of less than 4 GiB. -/
def LengthCounted (c : ColType × Value) (s : Stored) : Prop :=
  Counted (c.1, .value c.2) (c.1, s)

theorem Sealer.cap_bounds (sealer : Sealer) : 0 < sealer.cap.c ∧ sealer.cap.c ≤ 2 ^ 16 := by
  have hchain := sealer.chain_bounds
  have hc := sealer.cap_c_le
  unfold Cap.chain at hchain
  omega

theorem zip_resident (cols : List (ColType × Value)) :
    (cols.map (·.1)).zip (cols.map fun c => Stored.value c.2) = cols.map fun c => (c.1, .value c.2) := by
  rw [List.zip_map']

theorem forall₂_zip_of {R : ColType × Stored → ColType × Stored → Prop} {cols : List (ColType × Value)}
    {row : List Stored} (h : List.Forall₂ (fun c s => R (c.1, .value c.2) (c.1, s)) cols row) :
    List.Forall₂ R (cols.map fun c => (c.1, .value c.2)) ((cols.map (·.1)).zip row) := by
  induction h with
  | nil => exact .nil
  | cons hcs _ ih => exact .cons hcs ih

/-- The plan is of the logical values: a row in which references stand for any of the values has the
    plan of the resident row on exactly the condition that every reference in a large form is to a
    payload of less than 4 GiB. -/
theorem plan_of_logical_values_iff (sealer : Sealer) (cols : List (ColType × Value)) (key : Bytes)
    (row : List Stored) (plan : RecordPlan)
    (hplan : planDispositions (cols.map (·.1)) key (cols.map fun c => .value c.2) sealer.cap = .ok plan)
    (hrow : List.Forall₂ (Replaces sealer.cap) cols row) :
    (∃ plan', planDispositions (cols.map (·.1)) key row sealer.cap = .ok plan' ∧ SamePlan plan' plan) ↔
      List.Forall₂ LengthCounted cols row := by
  obtain ⟨facts, t, hof⟩ := planDispositions_ok hplan
  rw [zip_resident] at hof
  have hrow' := forall₂_zip_of hrow
  constructor
  · rintro ⟨plan', hplan', hsame⟩
    obtain ⟨facts', t', hof'⟩ := planDispositions_ok hplan'
    rw [List.forall₂_iff_get]
    refine ⟨hrow.length_eq, fun k hk hk' v u payload hv hu hlarge hpayload => ?_⟩
    have hreplaces := (List.forall₂_iff_get.mp hrow).2 k hk hk'
    have hcol : (cols.map fun c => (c.1, Stored.value c.2))[k]?
        = some ((cols.get ⟨k, hk⟩).1, .value (cols.get ⟨k, hk⟩).2) := by
      rw [List.getElem?_map, List.getElem?_eq_getElem hk]
      rfl
    have hcol' : ((cols.map (·.1)).zip row)[k]?
        = some ((cols.get ⟨k, hk⟩).1, row.get ⟨k, hk'⟩) := by
      rw [List.getElem?_zip_eq_some, List.getElem?_map, List.getElem?_eq_getElem hk,
        List.getElem?_eq_getElem hk']
      exact ⟨rfl, rfl⟩
    generalize cols.get ⟨k, hk⟩ = c at *
    generalize row.get ⟨k, hk'⟩ = s at *
    cases hv
    cases hu
    have hplain := hreplaces.plain
    by_contra hshort
    have hfewer := not_samePlan_of_cut sealer.cap_bounds hof hof' hrow' hcol hcol' hplain.1 hplain.2
      hlarge hpayload (not_lt.mp hshort)
    rw [hsame.compressUnits] at hfewer
    exact lt_irrefl _ hfewer
  · intro hcounted
    obtain ⟨t', plan', hof', hsame⟩ := samePlan_of_counted hof hrow' (forall₂_zip_of hcounted)
    refine ⟨plan', ?_, hsame⟩
    show (_ >>= fun facts => planColumns _ facts key.length sealer.cap) = _
    rw [hof'.known]
    show (passesOf _ key.length sealer.cap facts (attemptOf _) >>= _) = _
    rw [hof'.run, hof'.made]
    rfl

theorem candidates_one {p : ℕ → Bool} {le : ℕ → ℕ → Bool} (h : p 0 = true) :
    ((List.range 1).filter p).mergeSort le = [0] := by
  rw [show List.range 1 = [0] from rfl, List.filter_cons_of_pos h, List.filter_nil,
    List.mergeSort_singleton]

/-- A value of 4 GiB or more leaves its record. -/
theorem plan_of_long {ct : ColType} {v : Value} {inline payload : Bytes} (sealer : Sealer)
    (hknown : Known ct v inline payload) (hst : Storable ct v) (hspill : isSpillable ct = true)
    (hlong : 2 ^ 32 ≤ payload.length) :
    ∃ plan disp u, planDispositions [ct] [] [.value v] sealer.cap = .ok plan ∧ plan.disp = [disp] ∧
      DefersTo ct v disp u ∧ u.isLarge = true := by
  have hbounds := sealer.cap_bounds
  have hchain := sealer.chain_bounds.1
  unfold Cap.chain at hchain
  have hfacts := hknown.facts hst hspill
  have hcomp := Lz4.le_compress payload
  have hmax : recordMax sealer.cap.c 1 ≤ 2 ^ 16 := by
    unfold recordMax
    omega
  generalize hf : (payload.length + inlineHeaderLen ct, payload.length) = f at hfacts
  have hinline : inlineOf [f] 0 = payload.length + inlineHeaderLen ct := by
    rw [← hf]
    rfl
  have hlen : lenOf [(ct, .value v)] [f] 0 = payload.length := by
    rw [← hf]
    show (if (isSpillable ct && !isNull v) = true then payload.length else 0) = _
    rw [hspill, isNull_of_storable hst]
    rfl
  have hattempt : attemptOf [(ct, .value v)] 0 = .ok (some (.owned (Lz4.compress payload))) :=
    attempt_value hknown.content
  have hadds : (startOf 0 [f]).Adds 0 1 := startOf_adds
  have hcur : 2 ^ 20 < (startOf 0 [f]).cur 0 := by
    show 2 ^ 20 < inlineOf [f] 0
    omega
  have hbig := hadds.le Nat.one_pos
  generalize hs : (startOf 0 [f]).attempted (divCeil (lenOf [(ct, .value v)] [f] 0) sealer.cap.c)
    (inlineOf [f] 0) 0 (some (.owned (Lz4.compress payload))) = s
  have hcur' : 2 ^ 20 < s.cur 0 := by
    rw [← hs]
    apply Planning.attempted_cur hattempt _ hcur
    intro comp hcomp'
    rw [hattempt] at hcomp'
    cases hcomp'
    show _ < _ + (Lz4.compress payload).length
    omega
  have hbig' := (hs ▸ hadds.attempted Nat.one_pos _ _ _ : s.Adds 0 1).le Nat.one_pos
  have htried : Tried (inlineOf [f]) (attemptOf [(ct, .value v)]) 0 (s.disp 0) := by
    rw [← hs]
    exact (Planning.attempted_disp _ hattempt (fun _ => .inl rfl) 0).1
  have hpass : compressPass (inlineOf [f]) (lenOf [(ct, .value v)] [f]) (attemptOf [(ct, .value v)])
      sealer.cap.c (recordMax sealer.cap.c 1)
      (compressCandidates 1 (inlineOf [f]) (lenOf [(ct, .value v)] [f])) (startOf 0 [f]) = .ok s := by
    have hcand : compressCandidates 1 (inlineOf [f]) (lenOf [(ct, .value v)] [f]) = [0] := by
      apply candidates_one
      rw [decide_eq_true_eq, hlen]
      unfold S_COMPRESS
      omega
    rw [hcand, compressPass_cons (by omega), hattempt, ← hs]
    rfl
  have hmoved : externalizePass (lenOf [(ct, .value v)] [f]) sealer.cap.tag (recordMax sealer.cap.c 1)
      (externalizeCandidates 1 (fun i => [isSpillable ct].getD i false) sealer.cap.tag s) s
        = s.externalize (lenOf [(ct, .value v)] [f]) sealer.cap.tag 0 := by
    have hcand : externalizeCandidates 1 (fun i => [isSpillable ct].getD i false) sealer.cap.tag s
        = [0] := by
      apply candidates_one
      show (isSpillable ct && decide (pointerLen sealer.cap.tag (s.disp 0) < s.cur 0)) = true
      rw [hspill, Bool.true_and, decide_eq_true_eq]
      unfold pointerLen EXTERNAL_COMP_PTR_LEN EXTERNAL_PTR_LEN
      split <;> omega
    rw [hcand, externalizePass, if_neg (by omega)]
    rfl
  have hrun : passesOf [(ct, .value v)] 0 sealer.cap [f] (attemptOf [(ct, .value v)])
      = .ok (s.externalize (lenOf [(ct, .value v)] [f]) sealer.cap.tag 0) := by
    unfold passesOf runPasses
    rw [List.length_singleton, if_neg (show ¬(startOf 0 [f]).size ≤ recordMax sealer.cap.c 1 by omega)]
    refine bind_eq_ok.mpr ⟨s, hpass, ?_⟩
    rw [if_neg (show ¬s.size ≤ recordMax sealer.cap.c 1 by omega)]
    exact congrArg Except.ok hmoved
  have hknown' : [(ct, Stored.value v)].mapM columnFacts = .ok [f] := by
    rw [List.mapM_cons, hfacts]
    rfl
  have hdisp : (s.externalize (lenOf [(ct, .value v)] [f]) sealer.cap.tag 0).disp 0
      = (s.disp 0).moved := by
    rw [Planning.externalize_disp, if_pos rfl]
  have hplan : ∃ plan, planDispositions [ct] [] [.value v] sealer.cap = .ok plan ∧
      plan.disp = [(s.disp 0).moved] := by
    refine ⟨_, bind_eq_ok.mpr ⟨[f], hknown', bind_eq_ok.mpr ⟨_, hrun, rfl⟩⟩, ?_⟩
    rw [← hdisp]
    rfl
  obtain ⟨plan, hplan, hplanned⟩ := hplan
  cases htried with
  | inl hleft =>
    refine ⟨plan, _, .external PageRef.NONE (payload.length % 2 ^ 32), hplan, hplanned, ?_, rfl⟩
    rw [hleft]
    exact .external _ hknown.content
  | inr hblock =>
    obtain ⟨comp, hblock, hcomp', -⟩ := hblock
    rw [hattempt] at hcomp'
    cases hcomp'
    refine ⟨plan, _, .externalComp PageRef.NONE ((Lz4.compress payload).length % 2 ^ 32)
      (payload.length % 2 ^ 32), hplan, hplanned, ?_, rfl⟩
    rw [hblock]
    exact .externalComp _ hknown.content

theorem known_bytea (s : Bytes) :
    Known (.scalar .bytea) (.bytea s) (0x00 :: encodeString s) s where
  encoded := rfl
  content := rfl
  behind := behind_string (.inr (.inl rfl)) s

theorem storable_bytea (s : Bytes) : Storable (.scalar .bytea) (.bytea s) :=
  .keyed (.bytea s) fun _ h => by cases h

/-- A string of 4 GiB of zeros is deferred to a reference to nothing, and planned as such. -/
theorem four_gib_of_zeros :
    ∃ plan u, planDispositions [.scalar .bytea] [] [.value (.bytea (List.replicate (2 ^ 32) 0))]
        largestPages.cap = .ok plan ∧
      Replaces largestPages.cap (.scalar .bytea, .bytea (List.replicate (2 ^ 32) 0)) (.unfetched u) ∧
      ¬∃ plan', planDispositions [.scalar .bytea] [] [.unfetched u] largestPages.cap = .ok plan' ∧
        SamePlan plan' plan := by
  have hlong : 2 ^ 32 ≤ (List.replicate (2 ^ 32) (0 : UInt8)).length := by rw [List.length_replicate]
  generalize List.replicate (2 ^ 32) (0 : UInt8) = s at hlong ⊢
  have hst := storable_bytea s
  obtain ⟨plan, disp, u, hplan, hdisp, hdefers, hlarge⟩ :=
    plan_of_long largestPages (known_bytea s) hst rfl hlong
  have hstores : Stores largestPages.cap (.scalar .bytea) (.bytea s) disp :=
    ⟨[.scalar .bytea], [], [.value (.bytea s)], plan, 0, hplan, rfl, by rw [hdisp]; rfl⟩
  have hreplaces : Replaces largestPages.cap (.scalar .bytea, .bytea s) (.unfetched u) :=
    .deferred hst rfl ⟨disp, hstores, hdefers⟩
  refine ⟨plan, u, hplan, hreplaces, ?_⟩
  rintro ⟨plan', hplan', hsame⟩
  obtain ⟨facts, t, hof⟩ := planDispositions_ok hplan
  obtain ⟨facts', t', hof'⟩ := planDispositions_ok hplan'
  have hfewer := not_samePlan_of_cut (k := 0) largestPages.cap_bounds hof hof'
    (.cons hreplaces .nil) rfl rfl hst rfl hlarge rfl hlong
  rw [hsame.compressUnits] at hfewer
  exact lt_irrefl _ hfewer

theorem plan_of_logical_values_iff_abc : ∃ plan,
    planDispositions [.scalar .bytea] [] [.value (.bytea [1, 2, 3])] largestPages.cap = .ok plan ∧
      ((∃ plan', planDispositions [.scalar .bytea] [] [.unfetched (.inline [0, 3, 1, 2, 3])]
          largestPages.cap = .ok plan' ∧ SamePlan plan' plan) ↔
        List.Forall₂ LengthCounted [(.scalar .bytea, .bytea [1, 2, 3])]
          [.unfetched (.inline [0, 3, 1, 2, 3])]) :=
  ⟨_, rfl, plan_of_logical_values_iff largestPages [(.scalar .bytea, .bytea [1, 2, 3])] [] _ _ rfl
    (.cons (.deferred (storable_bytea _) rfl
      ⟨.inline, ⟨[.scalar .bytea], [], [.value (.bytea [1, 2, 3])], _, 0, rfl, rfl, rfl⟩, .inline rfl⟩)
      .nil)⟩

end Jed.Codec
