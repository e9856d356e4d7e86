import Jed.Codec.PaxCells

/-!
# Leaves come back

A leaf's payload parses, and the leaf over it has the keys, the NULLs and the weights of its records; it
has their values on exactly the condition that the lengths that are stored of them are their own.
-/

namespace Jed.Codec

open Readers Key PMap Results

/-! ## Cells as they are laid -/

/-- The bytes of a cell in its column's region. -/
inductive CellBytes (sealer : Sealer) (blocks : ℕ → Except Failure Bytes) (ct : ColType) (s : Stored)
    (v : Value) (bytes : Bytes) : Prop where
  | slotNull {width : ℕ} (hwidth : fixedValueWidth ct = some width) (hnull : s.isNull = true)
      (hlen : bytes.length = width) : CellBytes sealer blocks ct s v bytes
  | slot {width : ℕ} (hwidth : fixedValueWidth ct = some width) (hnull : s.isNull = false)
      (hst : Storable ct v) (henc : encodeValue ct v = .ok (0x00 :: bytes)) (hlen : bytes.length = width) :
      CellBytes sealer blocks ct s v bytes
  | null (hwidth : fixedValueWidth ct = none) (hnull : s.isNull = true) (hbytes : bytes = []) :
      CellBytes sealer blocks ct s v bytes
  | laid (hwidth : fixedValueWidth ct = none) (hnull : s.isNull = false) (hst : Storable ct v)
      (hspill : isSpillable ct = true) (hlaid : LaidAs sealer blocks ct v bytes) :
      CellBytes sealer blocks ct s v bytes

variable {bytes : Bytes}

/-- Every form has a tag. -/
theorem LaidAs.ne_nil {sealer : Sealer} {blocks : ℕ → Except Failure Bytes} {ct : ColType} {v : Value}
    (hst : Storable ct v) (hspill : isSpillable ct = true)
    (h : LaidAs sealer blocks ct v bytes) : bytes ≠ [] := by
  cases h with
  | inline henc =>
    obtain ⟨payload, hknown⟩ := known_of_encoded hst hspill henc
    have hlen := hknown.behind.1
    have hheader : 1 ≤ inlineHeaderLen ct := by
      unfold inlineHeaderLen
      split
      · split <;> decide
      · decide
    rintro rfl
    rw [List.length_nil] at hlen
    omega
  | external | inlineComp | externalComp => exact List.cons_ne_nil _ _

theorem spillable_of_var {ct : ColType} {v : Value} (h : Storable ct v) (hwidth : fixedValueWidth ct = none) :
    isSpillable ct = true := by
  cases ct with
  | scalar ty =>
    cases h with
    | json | jsonb => rfl
    | keyed h hvalid => cases h <;> first | rfl | cases hwidth
  | composite | array | range => rfl

theorem fixedValueWidth_le {ct : ColType} {width : ℕ} (h : fixedValueWidth ct = some width) :
    width ≤ 16 := by
  cases ct with
  | scalar ty => cases ty <;> cases h <;> decide
  | composite | array | range => cases h

theorem valuePayload_null (ct : ColType) : valuePayload ct .null = .error .panic := by
  cases ct <;> rfl

section Cells

variable {src : ChainSource} {sealer : Sealer} {fresh : ℕ → ℕ} {blocks : ℕ → Except Failure Bytes}
  {ct : ColType} {s : Stored} {v : Value}

theorem CellOf.isNull (h : CellOf src sealer ct s v) : s.isNull = Codec.isNull v := by
  cases h with
  | null | resident => rfl
  | deferred hst => exact (isNull_of_storable hst).symm

theorem CellOf.storable (h : CellOf src sealer ct s v) (hnull : s.isNull = false) : Storable ct v := by
  cases h with
  | null => cases hnull
  | resident hst => exact hst
  | deferred hst => exact hst

theorem CellOf.null_of (h : CellOf src sealer ct s v) (hnull : s.isNull = true) : v = .null := by
  rw [h.isNull, isNull_iff] at hnull
  exact hnull

/-- A deferred value resolves, so it is one of those that the sizes of plans are known of. -/
theorem CellOf.cellOk (h : CellOf src sealer ct s v) : CellOk src ct s := by
  cases h with
  | null => exact .null
  | resident hst => exact .resident hst
  | @deferred v u hst hspill hdefer =>
    refine .deferred hst hspill (fun payload hpayload => ?_) hdefer.form
    cases hlarge : u.isLarge with
    | true => exact .inl ((hdefer.returns hst hspill hlarge).counted hspill payload hpayload)
    | false =>
      cases u with
      | external | inlineComp | externalComp => cases hlarge
      | inline body =>
        obtain ⟨paging, -, hres, -⟩ := hdefer.paging
        obtain ⟨⟨x, rest⟩, hread, hx⟩ := map_eq_ok.mp hres
        change x = oneNaN v at hx
        have hfits := ((sound_readInlineBody .construct ct).ok hread).2.1
        rw [hx] at hfits
        exact .inr (inlineFits_of_oneNaN v hfits)

variable {bytes : Bytes} {d : PlanDisp} {n : ℕ}

theorem encodeCell_prefix {c : ColType × Stored} {w w' : Written}
    (h : encodeCell src sealer fresh c d n w = .ok (bytes, w')) : w.ovf <+: w'.ovf := by
  unfold encodeCell at h
  split at h
  · split at h
    · cases h
      exact List.prefix_refl _
    · obtain ⟨inline, -, h⟩ := map_eq_ok.mp h
      cases h
      exact List.prefix_refl _
  · split at h
    · cases h
      exact List.prefix_refl _
    · exact encodeStored_prefix h

/-- What a plan knows of a column. -/
structure ColumnPlan (ct : ColType) (s : Stored) (d : PlanDisp) (n : ℕ) (f : ℕ × ℕ) : Prop where
  facts : columnFacts (ct, s) = .ok f
  len : n = spillLen (ct, s) f
  tells : ∀ c, d = .inlineComp c ∨ d = .externalComp c → attempt ct s = .ok (some c) ∧
    INLINE_COMP_OVERHEAD + c.len < f.1

variable {c : ℕ}

theorem columnPlan_of {colTypes : List ColType} {key : Bytes} {row : List Stored} {cap : Cap}
    {plan : RecordPlan} (hplan : planDispositions colTypes key row cap = .ok plan)
    (hc : (colTypes.zip row)[c]? = some (ct, s)) :
    ∃ d n f, plan.disp[c]? = some d ∧ plan.payloadLen[c]? = some n ∧ ColumnPlan ct s d n f := by
  obtain ⟨facts, t, hof⟩ := planDispositions_ok hplan
  have hlt := (List.getElem?_eq_some_iff.mp hc).1
  obtain ⟨f, hf, hfacts⟩ := exists_of_forall₂ (forall₂_of_mapM hof.known) hc
  have htells := runPasses_tells hof.run (fun _ => rfl) hlt
  have hinline : inlineOf facts c = f.1 := getD_of_getElem? (by rw [List.getElem?_map, hf]; rfl)
  refine ⟨t.disp c, spillLen (ct, s) f, f, ?_, ?_, hfacts, rfl, ?_⟩
  · rw [hof.made, List.getElem?_map, List.getElem?_range hlt]
    rfl
  · rw [hof.made, List.getElem?_zipWith, hc, hf]
  · intro comp hd
    have hboth : attemptOf (colTypes.zip row) c = .ok (some comp) ∧
        INLINE_COMP_OVERHEAD + comp.len < inlineOf facts c := by
      rcases hd with hd | hd <;> (rw [hd] at htells; exact htells)
    rw [attemptOf, hc, hinline] at hboth
    exact hboth

/-- A cell is a slot, nothing, or its value in the form of its plan. -/
theorem cellBytes_of_encoded (hkept : src.StandsIn sealer blocks) (hcell : CellOf src sealer ct s v)
    {f : ℕ × ℕ} (hplan : ColumnPlan ct s d n f) {w w' : Written}
    (h : encodeCell src sealer fresh (ct, s) d n w = .ok (bytes, w')) (hstood : Stood blocks w') :
    CellBytes sealer blocks ct s v bytes := by
  unfold encodeCell at h
  dsimp only at h
  cases hwidth : fixedValueWidth ct with
  | some width =>
    rw [hwidth] at h
    dsimp only at h
    cases hnull : s.isNull with
    | true =>
      rw [hnull, if_pos rfl] at h
      cases h
      exact .slotNull hwidth hnull List.length_replicate
    | false =>
      rw [hnull, if_neg Bool.false_ne_true] at h
      have hst := hcell.storable hnull
      obtain ⟨inline, henc, h⟩ := map_eq_ok.mp h
      cases h
      cases hcell with
      | null => cases hnull
      | deferred _ hspill =>
        rw [fixedValueWidth_spillable hspill] at hwidth
        cases hwidth
      | resident =>
        change encodeValue ct v = .ok inline at henc
        have hlen := encodeValue_fixed hst hwidth henc
        have hshort : inline.length < 2 ^ 16 := by
          have hsmall := fixedValueWidth_le hwidth
          rw [List.length_drop] at hlen
          omega
        obtain ⟨body, hbody, -⟩ := readsBack_value ct hst (inlineFits_of_short ct hst henc hshort)
        cases henc.symm.trans hbody
        exact .slot hwidth hnull hst henc hlen
  | none =>
    rw [hwidth] at h
    dsimp only at h
    cases hnull : s.isNull with
    | true =>
      rw [hnull, if_pos rfl] at h
      cases h
      exact .null hwidth hnull rfl
    | false =>
      rw [hnull, if_neg Bool.false_ne_true] at h
      have hst := hcell.storable hnull
      have hspill := spillable_of_var hst hwidth
      have hfacts := hplan.facts
      rw [columnFacts_spillable hspill] at hfacts
      have hpayload : ∃ payload, valuePayload ct v = .ok payload := by
        cases hcell with
        | null => cases hnull
        | resident =>
          rw [← columnFacts_spillable hspill] at hfacts
          obtain ⟨inline, payload, hknown, -⟩ := known_of_facts hst hspill hfacts
          exact ⟨payload, hknown.content⟩
        | deferred _ _ hdefer =>
          have hform := hdefer.form
          cases hform with
          | inline henc =>
            obtain ⟨payload, hpayload, -⟩ := planningPayload_inline hst hspill henc
            exact ⟨payload, hpayload⟩
          | external hpayload => exact ⟨_, hpayload⟩
          | inlineComp hpayload => exact ⟨_, hpayload⟩
          | externalComp hpayload => exact ⟨_, hpayload⟩
      obtain ⟨payload, hpayload⟩ := hpayload
      have hf := payloadLen_of_facts hcell hnull hspill hpayload hfacts
      have hlen : n = payload.length := by
        rw [hplan.len, hf, spillLen, hspill, hnull]
        rfl
      refine .laid hwidth hnull hst hspill
        (laidAs_of_encoded hkept hcell hst hspill hpayload hlen (fun c hd => ?_) h hstood)
      have htells := hplan.tells c hd
      rwa [hf] at htells

/-- A value that is not null is read inline where its type has a width, and left to be fetched where
    it has none. -/
theorem value_of_present {leaf : PackedLeaf} {ct : ColType} {i off : ℕ}
    (hct : leaf.colTypes[c]? = some ct) (hnull : leaf.isNull c i = .ok false)
    (hoff : leaf.dirs.valueOff leaf.payload c i = .ok off) :
    (∀ w, fixedValueWidth ct = some w → leaf.value c i =
      (readInlineBody .construct ct (leaf.payload.drop off)).map fun p => .value p.1) ∧
    (fixedValueWidth ct = none →
      leaf.value c i = (readValueLazy ct leaf.cap (leaf.payload.drop off)).map Prod.fst) := by
  constructor
  · intro w hw
    simp only [PackedLeaf.value, hnull, hct, hoff, hw, bind, Except.bind, Bool.false_eq_true, if_false]
  · intro hw
    simp only [PackedLeaf.value, hnull, hct, hoff, hw, bind, Except.bind, Bool.false_eq_true, if_false]

/-- What is read of a cell, where its region has it. -/
theorem value_of_cellBytes {leaf : PackedLeaf} {i off : ℕ} {more : Bytes}
    (hcell : CellOf src sealer ct s v) (hbytes : CellBytes sealer blocks ct s v bytes)
    (hshort : bytes.length < 2 ^ 16) (hcap : leaf.cap = sealer.cap) (hct : leaf.colTypes[c]? = some ct)
    (hnull : leaf.isNull c i = .ok s.isNull) (hoff : leaf.dirs.valueOff leaf.payload c i = .ok off)
    (hdrop : leaf.payload.drop off = bytes ++ more) :
    ∃ stored, leaf.value c i = .ok stored ∧
      (stored.resolve ct (sealer.readBody blocks) leaf.cap = .ok (oneNaN v) ↔ Returns ct v) := by
  have hisNull : s.isNull = true → ∃ stored, leaf.value c i = .ok stored ∧
      (stored.resolve ct (sealer.readBody blocks) leaf.cap = .ok (oneNaN v) ↔ Returns ct v) := by
    intro hs
    have hv := hcell.null_of hs
    rw [hs] at hnull
    refine ⟨.value .null, ?_, ?_⟩
    · unfold PackedLeaf.value
      rw [hnull]
      rfl
    · rw [hv]
      refine ⟨fun _ => ⟨trivial, fun _ payload hpayload => ?_⟩, fun _ => rfl⟩
      rw [valuePayload_null] at hpayload
      cases hpayload
  have hpresent : s.isNull = false → leaf.isNull c i = .ok false := by
    intro hs
    rw [hnull, hs]
  cases hbytes with
  | slotNull hwidth hs => exact hisNull hs
  | null hwidth hs => exact hisNull hs
  | @slot width hwidth hs hst henc hlen =>
    have hsmall := fixedValueWidth_le hwidth
    have hwhole : (0x00 :: bytes : Bytes).length < 2 ^ 16 := by
      rw [List.length_cons]
      omega
    have hfits := inlineFits_of_short ct hst henc hwhole
    obtain ⟨body, hbody, hread⟩ := readsBack_value ct hst hfits
    cases henc.symm.trans hbody
    refine ⟨.value (oneNaN v), ?_, ?_⟩
    · rw [(value_of_present hct (hpresent hs) hoff).1 _ hwidth, hdrop, hread more]
      rfl
    · refine ⟨fun _ => ⟨nestedFits_of_inlineFits hfits, fun hspill => ?_⟩, fun _ => rfl⟩
      rw [fixedValueWidth_spillable hspill] at hwidth
      cases hwidth
  | laid hwidth hs hst hspill hlaid =>
    obtain ⟨u, hreads, hres⟩ := hlaid.reads hst hspill hshort
    refine ⟨.unfetched u, ?_, ?_⟩
    · rw [(value_of_present hct (hpresent hs) hoff).2 hwidth, hdrop, hcap, hreads more]
      rfl
    · rw [hcap]
      exact hres

end Cells

/-! ## Records as they are encoded -/

/-- Each cell of a record was encoded, before what was written last. -/
theorem encodeCells_each {cell : ColType × Stored → PlanDisp → ℕ → Written →
      Except Failure (Bytes × Written)}
    (hpre : ∀ {c d n w b w'}, cell c d n w = .ok (b, w') → w.ovf <+: w'.ovf)
    {cols : List (ColType × Stored)} :
    ∀ {disps : List PlanDisp} {lens : List ℕ} {w w' : Written} {cells : List Bytes},
      encodeCells cell cols disps lens w = .ok (cells, w') →
      w.ovf <+: w'.ovf ∧ ∀ (i : ℕ) (c : ColType × Stored) (d : PlanDisp) (n : ℕ) (b : Bytes),
        cols[i]? = some c → disps[i]? = some d → lens[i]? = some n → cells[i]? = some b →
        ∃ w1 w2, cell c d n w1 = .ok (b, w2) ∧ w2.ovf <+: w'.ovf := by
  induction cols with
  | nil =>
    intro disps lens w w' cells h
    cases h
    exact ⟨List.prefix_refl _, nofun⟩
  | cons c cols ih =>
    intro disps lens w w' cells h
    cases disps with
    | nil => cases h
    | cons d disps =>
      cases lens with
      | nil => cases h
      | cons n lens =>
        obtain ⟨⟨b, w1⟩, hb, h⟩ := bind_eq_ok.mp h
        obtain ⟨⟨rest, w2⟩, hrest, h⟩ := bind_eq_ok.mp h
        cases h
        obtain ⟨htail, heach⟩ := ih hrest
        refine ⟨(hpre hb).trans htail, fun i c' d' n' b' hc hd hn hb' => ?_⟩
        cases i with
        | zero =>
          cases hc
          cases hd
          cases hn
          cases hb'
          exact ⟨w, w1, hb, htail⟩
        | succ i => exact heach i c' d' n' b' hc hd hn hb'

/-- Each record was encoded by its plan. -/
theorem encodeRecords_each {src : ChainSource} {sealer : Sealer} {fresh : ℕ → ℕ} {colTypes : List ColType}
    {records : List (Bytes × List Stored)} :
    ∀ {w w' : Written} {cells : List (List Bytes)},
      encodeRecords src sealer fresh colTypes records w = .ok (cells, w') →
      w.ovf <+: w'.ovf ∧ ∀ (i : ℕ) (r : Bytes × List Stored) (cs : List Bytes),
        records[i]? = some r → cells[i]? = some cs →
        ∃ plan w1 w2, planDispositions colTypes r.1 r.2 sealer.cap = .ok plan ∧
          encodeCells (encodeCell src sealer fresh) (colTypes.zip r.2) plan.disp plan.payloadLen w1
            = .ok (cs, w2) ∧ w2.ovf <+: w'.ovf := by
  induction records with
  | nil =>
    intro w w' cells h
    cases h
    exact ⟨List.prefix_refl _, nofun⟩
  | cons r records ih =>
    intro w w' cells h
    obtain ⟨key, row⟩ := r
    obtain ⟨plan, hplan, h⟩ := bind_eq_ok.mp h
    obtain ⟨⟨cs, w1⟩, hcells, h⟩ := bind_eq_ok.mp h
    obtain ⟨⟨rest, w2⟩, hrest, h⟩ := bind_eq_ok.mp h
    cases h
    have hfirst := (encodeCells_each encodeCell_prefix hcells).1
    obtain ⟨htail, heach⟩ := ih hrest
    refine ⟨hfirst.trans htail, fun i r' cs' hr hcs => ?_⟩
    cases i with
    | zero =>
      cases hr
      cases hcs
      exact ⟨plan, w, w1, hplan, hcells, htail⟩
    | succ i => exact heach i r' cs' hr hcs

/-! ## The round trip -/

/-- A record: its key, and what its row holds with the values that it stands for. -/
abbrev LeafRow := Bytes × List (Stored × Value)

def storedRow (r : LeafRow) : Bytes × List Stored := (r.1, r.2.map Prod.fst)

def RowOf (src : ChainSource) (sealer : Sealer) (colTypes : List ColType) (r : LeafRow) : Prop :=
  List.Forall₂ (fun ct p => CellOf src sealer ct p.1 p.2) colTypes r.2

/-- A leaf has its records: their keys and NULLs, what its values resolve to, and their weights. -/
structure HasRows (leaf : PackedLeaf) (fetch : PageRef → Except Failure Bytes) (rows : List LeafRow) :
    Prop where
  key : ∀ (i : ℕ) (r : LeafRow), rows[i]? = some r → leaf.key i = .ok r.1
  isNull : ∀ (i c : ℕ) (r : LeafRow) (p : Stored × Value), rows[i]? = some r → r.2[c]? = some p →
    leaf.isNull c i = .ok (Codec.isNull p.2)
  value : ∀ (i c : ℕ) (r : LeafRow) (p : Stored × Value) (ct : ColType), rows[i]? = some r →
    r.2[c]? = some p → leaf.colTypes[c]? = some ct →
    ∃ stored, leaf.value c i = .ok stored ∧ stored.resolve ct fetch leaf.cap = .ok (oneNaN p.2)
  weight : ∀ (i : ℕ) (r : LeafRow), rows[i]? = some r →
    ∃ size, recordSize leaf.colTypes r.1 (storedRow r).2 leaf.cap = .ok size ∧
      leaf.recordWeight i = .ok size

/-- A payload parses to a leaf that has the records. -/
def PaxRoundTrips (sealer : Sealer) (blocks : ℕ → Except Failure Bytes) (colTypes : List ColType)
    (rows : List LeafRow) (payload : Bytes) : Prop :=
  ∃ dirs, parsePaxLeaf payload rows.length colTypes = .ok dirs ∧
    HasRows ⟨payload, dirs, colTypes, sealer.cap, rows.length⟩ (sealer.readBody blocks) rows

section RoundTrip

variable {src : ChainSource} {sealer : Sealer} {fresh : ℕ → ℕ} {blocks : ℕ → Except Failure Bytes}
  {colTypes : List ColType} {rows : List LeafRow} {cells : List (List Bytes)} {w w' : Written}

theorem RowOf.cellOk {r : LeafRow} (h : RowOf src sealer colTypes r) :
    List.Forall₂ (CellOk src) colTypes (storedRow r).2 := by
  unfold RowOf at h
  show List.Forall₂ (CellOk src) colTypes (r.2.map Prod.fst)
  rw [List.forall₂_map_right_iff]
  exact h.imp fun _ _ hcell => hcell.cellOk

/-- A cell of a leaf, with all that is known of it. -/
structure CellAt (sealer : Sealer) (src : ChainSource) (blocks : ℕ → Except Failure Bytes) (ct : ColType)
    (p : Stored × Value) (bytes : Bytes) : Prop where
  cell : CellOf src sealer ct p.1 p.2
  bytes : CellBytes sealer blocks ct p.1 p.2 bytes

theorem cellAt_of_encoded (hrows : ∀ r ∈ rows, RowOf src sealer colTypes r)
    (hkept : src.StandsIn sealer blocks)
    (henc : encodeRecords src sealer fresh colTypes (rows.map storedRow) w = .ok (cells, w'))
    (hstood : Stood blocks w') {i c : ℕ} {r : LeafRow} {p : Stored × Value} {ct : ColType}
    {cs : List Bytes} {b : Bytes} (hr : rows[i]? = some r) (hp : r.2[c]? = some p)
    (hct : colTypes[c]? = some ct) (hcs : cells[i]? = some cs) (hb : cs[c]? = some b) :
    CellAt sealer src blocks ct p b := by
  have hrow := hrows r (List.mem_of_getElem? hr)
  obtain ⟨p', hp', hcell⟩ := exists_of_forall₂ hrow hct
  cases hp.symm.trans hp'
  have hr' : (rows.map storedRow)[i]? = some (storedRow r) := by rw [List.getElem?_map, hr]; rfl
  obtain ⟨plan, w1, w2, hplan, hcells, hpre⟩ := (encodeRecords_each henc).2 i _ cs hr' hcs
  have hs : (storedRow r).2[c]? = some p.1 := by
    show (r.2.map Prod.fst)[c]? = _
    rw [List.getElem?_map, hp]
    rfl
  have hzip : (colTypes.zip (storedRow r).2)[c]? = some (ct, p.1) := by
    rw [List.getElem?_zip_eq_some]
    exact ⟨hct, hs⟩
  obtain ⟨d, n, f, hd, hn, hcol⟩ := columnPlan_of hplan hzip
  obtain ⟨w3, w4, hcellenc, hpre'⟩ := (encodeCells_each encodeCell_prefix hcells).2 c _ d n b hzip hd hn hb
  exact ⟨hcell, cellBytes_of_encoded hkept hcell hcol hcellenc (hstood.of_prefix (hpre'.trans hpre))⟩

/-- The cells of rows are those of a leaf. -/
theorem cellsOf_encoded (hrows : ∀ r ∈ rows, RowOf src sealer colTypes r)
    (hkept : src.StandsIn sealer blocks)
    (henc : encodeRecords src sealer fresh colTypes (rows.map storedRow) w = .ok (cells, w'))
    (hstood : Stood blocks w') : CellsOf colTypes (rows.map storedRow) cells := by
  have hok : ∀ r ∈ rows.map storedRow, List.Forall₂ (CellOk src) colTypes r.2 := by
    intro r hr
    obtain ⟨r', hr', rfl⟩ := List.mem_map.mp hr
    exact (hrows r' hr').cellOk
  obtain ⟨hlen, hcols, -⟩ := encodeRecords_sizes hok henc
  refine ⟨hlen, fun r hr => (hok r hr).length_eq.symm, hcols, ?_⟩
  intro i c ct r s cs b hct hr hs hcs hb
  rw [List.getElem?_map] at hr
  obtain ⟨r', hr', rfl⟩ := Option.map_eq_some_iff.mp hr
  change (r'.2.map Prod.fst)[c]? = some s at hs
  rw [List.getElem?_map] at hs
  obtain ⟨p, hp, rfl⟩ := Option.map_eq_some_iff.mp hs
  obtain ⟨hcell, hbytes⟩ := cellAt_of_encoded hrows hkept henc hstood hr' hp hct hcs hb
  cases hbytes with
  | slotNull hwidth hnull hlen =>
    refine ⟨fun width hw => ?_, fun hw => ?_⟩
    · cases hwidth.symm.trans hw
      exact hlen
    · rw [hw] at hwidth
      cases hwidth
  | slot hwidth hnull hst henc hlen =>
    refine ⟨fun width hw => ?_, fun hw => ?_⟩
    · cases hwidth.symm.trans hw
      exact hlen
    · rw [hw] at hwidth
      cases hwidth
  | null hwidth hnull hbytes =>
    refine ⟨fun width hw => ?_, fun _ => ⟨fun _ => hbytes, fun _ => hnull⟩⟩
    rw [hw] at hwidth
    cases hwidth
  | laid hwidth hnull hst hspill hlaid =>
    refine ⟨fun width hw => ?_, fun _ => ⟨fun htrue => ?_, fun hnil => ?_⟩⟩
    · rw [hw] at hwidth
      cases hwidth
    · rw [hnull] at htrue
      cases htrue
    · exact absurd hnil (hlaid.ne_nil hst hspill)

/-- The lengths of a record's cells, one column after another. -/
theorem mapM_range_ok {f : ℕ → Except Failure ℕ} {cs : List Bytes}
    (h : ∀ c (hc : c < cs.length), f c = .ok cs[c].length) :
    (List.range cs.length).mapM f = .ok (cs.map List.length) := by
  induction cs using List.reverseRecOn with
  | nil => rfl
  | append_singleton cs b ih =>
    have hfront := ih fun c hc => by
      have := h c (by rw [List.length_append]; omega)
      rwa [List.getElem_append_left hc] at this
    have hlast := h cs.length (by rw [List.length_append, List.length_singleton]; omega)
    rw [List.getElem_append_right le_rfl] at hlast
    rw [List.length_append, List.length_singleton, List.range_succ, List.mapM_append, hfront]
    simp [hlast]
    rfl

/-- What a leaf of a page is read to hold, besides its values. -/
theorem leaf_of_encoded (hrows : ∀ r ∈ rows, RowOf src sealer colTypes r)
    (hkept : src.StandsIn sealer blocks) {content rest : Bytes}
    (henc : encodeLeafPax src sealer fresh colTypes (rows.map storedRow) w = .ok (content, w'))
    (hstood : Stood blocks w') (hpage : (content ++ rest).length < 2 ^ 16) :
    ∃ dirs, parsePaxLeaf (content ++ rest) rows.length colTypes = .ok dirs ∧
      let leaf : PackedLeaf := ⟨content ++ rest, dirs, colTypes, sealer.cap, rows.length⟩
      (∀ (i : ℕ) (r : LeafRow), rows[i]? = some r → leaf.key i = .ok r.1) ∧
      (∀ (i c : ℕ) (r : LeafRow) (p : Stored × Value), rows[i]? = some r → r.2[c]? = some p →
        leaf.isNull c i = .ok (Codec.isNull p.2)) ∧
      (∀ (i c : ℕ) (r : LeafRow) (p : Stored × Value) (ct : ColType), rows[i]? = some r →
        r.2[c]? = some p → colTypes[c]? = some ct → ∃ stored, leaf.value c i = .ok stored ∧
          (stored.resolve ct (sealer.readBody blocks) sealer.cap = .ok (oneNaN p.2) ↔ Returns ct p.2)) ∧
      ∀ (i : ℕ) (r : LeafRow), rows[i]? = some r →
        ∃ size, recordSize colTypes r.1 (storedRow r).2 sealer.cap = .ok size ∧
          leaf.recordWeight i = .ok size := by
  obtain ⟨⟨cells, w1⟩, hcells, henc⟩ := bind_eq_ok.mp henc
  cases henc
  have hof := cellsOf_encoded hrows hkept hcells hstood
  obtain ⟨dirs, hparse, hfinds⟩ := parsePaxLeaf_layLeaf hof rfl (hpage.trans (by decide))
  rw [List.length_map] at hparse
  refine ⟨dirs, hparse, ?_⟩
  intro leaf
  have hstored : ∀ {i : ℕ} {r : LeafRow}, rows[i]? = some r →
      (rows.map storedRow)[i]? = some (storedRow r) := by
    intro i r hr
    rw [List.getElem?_map, hr]
    rfl
  have hkey : ∀ (i : ℕ) (r : LeafRow), rows[i]? = some r → leaf.key i = .ok r.1 := by
    intro i r hr
    have := hfinds.key i _ (hstored hr)
    unfold PackedLeaf.key
    rw [this]
    rfl
  have hcell : ∀ {i c : ℕ} {r : LeafRow} {p : Stored × Value} {ct : ColType}, rows[i]? = some r →
      r.2[c]? = some p → colTypes[c]? = some ct → ∃ cs b, cells[i]? = some cs ∧ cs[c]? = some b ∧
        CellAt sealer src blocks ct p b := by
    intro i c r p ct hr hp hct
    have hi : i < cells.length := by
      rw [hof.length, List.length_map]
      exact (List.getElem?_eq_some_iff.mp hr).1
    have hc : c < (cells[i]).length := by
      rw [hof.cols _ (List.getElem_mem hi)]
      exact (List.getElem?_eq_some_iff.mp hct).1
    exact ⟨_, _, List.getElem?_eq_getElem hi, List.getElem?_eq_getElem hc,
      cellAt_of_encoded hrows hkept hcells hstood hr hp hct (List.getElem?_eq_getElem hi)
        (List.getElem?_eq_getElem hc)⟩
  have hstoredNull : ∀ (i c : ℕ) (r : LeafRow) (p : Stored × Value), rows[i]? = some r →
      r.2[c]? = some p → leaf.isNull c i = .ok p.1.isNull := by
    intro i c r p hr hp
    refine hfinds.isNull i c _ _ (hstored hr) ?_
    show (r.2.map Prod.fst)[c]? = _
    rw [List.getElem?_map, hp]
    rfl
  refine ⟨hkey, ?_, ?_, ?_⟩
  · intro i c r p hr hp
    have hrow := hrows r (List.mem_of_getElem? hr)
    have hc : c < colTypes.length := by
      rw [hrow.length_eq]
      exact (List.getElem?_eq_some_iff.mp hp).1
    obtain ⟨p', hp', hcellOf⟩ := exists_of_forall₂ hrow (List.getElem?_eq_getElem hc)
    cases hp.symm.trans hp'
    rw [← hcellOf.isNull]
    exact hstoredNull i c r p hr hp
  · intro i c r p ct hr hp hct
    obtain ⟨cs, b, hcs, hb, hat⟩ := hcell hr hp hct
    obtain ⟨-, off, more, hoff, hdrop⟩ := hfinds.value i c cs b hcs hb
    have hshort : b.length < 2 ^ 16 := by
      have hle : b.length ≤ (b ++ more).length := (List.prefix_append b more).length_le
      rw [← hdrop, List.length_drop] at hle
      omega
    exact value_of_cellBytes hat.cell hat.bytes hshort rfl hct (hstoredNull i c r p hr hp) hoff hdrop
  · intro i r hr
    have hi : i < cells.length := by
      rw [hof.length, List.length_map]
      exact (List.getElem?_eq_some_iff.mp hr).1
    obtain ⟨plan, w1, w2, hplan, hcs, -⟩ :=
      (encodeRecords_each hcells).2 i _ _ (hstored hr) (List.getElem?_eq_getElem hi)
    obtain ⟨hlen, hsize⟩ := encodeCells_size (hrows r (List.mem_of_getElem? hr)).cellOk hplan hcs
    refine ⟨plan.size, ?_, ?_⟩
    · unfold recordSize
      change planDispositions colTypes r.1 (storedRow r).2 sealer.cap = .ok plan at hplan
      rw [hplan]
      rfl
    · have hlens : (List.range colTypes.length).mapM (fun c => dirs.valueLen (layLeaf colTypes
          (rows.map storedRow) cells ++ rest) c i) = .ok ((cells[i]).map List.length) := by
        rw [← hlen]
        refine mapM_range_ok fun c hc => ?_
        exact (hfinds.value i c _ _ (List.getElem?_eq_getElem hi) (List.getElem?_eq_getElem hc)).1
      have hsmall : plan.size < 2 ^ 32 := by
        have hmem : plan.size ∈ List.zipWith (fun r cs => r.1.length + (cs.map List.length).sum)
            (rows.map storedRow) cells := by
          refine List.mem_of_getElem? (i := i) ?_
          rw [List.getElem?_zipWith, hstored hr, List.getElem?_eq_getElem hi, hsize]
        have hle := List.le_sum_of_mem hmem
        have hlay := layLeaf_length hof.length hof.cols
        rw [List.length_append] at hpage
        omega
      unfold PackedLeaf.recordWeight
      rw [hkey i r hr]
      show ((List.range colTypes.length).mapM (fun c => dirs.valueLen (layLeaf colTypes
          (rows.map storedRow) cells ++ rest) c i) >>= fun lens =>
        Except.ok ((r.1.length + lens.sum) % 2 ^ 32)) = _
      rw [hlens]
      show Except.ok ((r.1.length + ((cells[i]).map List.length).sum) % 2 ^ 32) = _
      rw [← show plan.size = r.1.length + ((cells[i]).map List.length).sum from hsize,
        Nat.mod_eq_of_lt hsmall]

/-- A leaf that was encoded onto a page comes back from it on exactly the condition that the lengths of its
    values are their own, and in any payload that parses, every key, NULL and value is within it. -/
theorem pax_leaf_round_trips_iff (src : ChainSource) (sealer : Sealer) (fresh : ℕ → ℕ)
    (blocks : ℕ → Except Failure Bytes) (colTypes : List ColType) :
    (∀ (rows : List LeafRow) (w w' : Written) (content : Bytes) (pad : ℕ),
      (∀ r ∈ rows, RowOf src sealer colTypes r) → src.StandsIn sealer blocks →
      encodeLeafPax src sealer fresh colTypes (rows.map storedRow) w = .ok (content, w') →
      Stood blocks w' → PAGE_HEADER + (content.length + pad) ≤ sealer.ps →
      (PaxRoundTrips sealer blocks colTypes rows (content ++ List.replicate pad 0) ↔
        ∀ r ∈ rows, List.Forall₂ (fun ct p => Returns ct p.2) colTypes r.2)) ∧
    ∀ (payload : Bytes) (n : ℕ) (dirs : PaxDirs), parsePaxLeaf payload n colTypes = .ok dirs →
      dirs.InRange payload n colTypes.length := by
  refine ⟨?_, fun payload n dirs hparse => parsePaxLeaf_inRange hparse⟩
  intro rows w w' content pad hrows hkept henc hstood hpage
  have hsize : (content ++ List.replicate pad 0).length < 2 ^ 16 := by
    have hvalid := sealer.valid
    simp only [pageSizeValid, Bool.and_eq_true, decide_eq_true_eq] at hvalid
    rw [List.length_append, List.length_replicate]
    unfold PAGE_HEADER at hpage
    omega
  obtain ⟨dirs, hparse, hkey, hnull, hvalue, hweight⟩ := leaf_of_encoded hrows hkept henc hstood hsize
  constructor
  · rintro ⟨dirs', hparse', hhas⟩ r hr
    cases hparse.symm.trans hparse'
    obtain ⟨i, hi⟩ := List.mem_iff_getElem?.mp hr
    rw [List.forall₂_iff_get]
    refine ⟨(hrows r hr).length_eq, fun c hc hc' => ?_⟩
    have hct := List.getElem?_eq_getElem hc
    have hp := List.getElem?_eq_getElem hc'
    obtain ⟨stored, hstored, hres⟩ := hvalue i c r _ _ hi hp hct
    obtain ⟨stored', hstored', hres'⟩ := hhas.value i c r _ _ hi hp hct
    cases hstored.symm.trans hstored'
    exact hres.mp hres'
  · intro hreturns
    refine ⟨dirs, hparse, hkey, hnull, fun i c r p ct hr hp hct => ?_, hweight⟩
    obtain ⟨stored, hstored, hres⟩ := hvalue i c r p ct hr hp hct
    obtain ⟨p', hp', hret⟩ := exists_of_forall₂ (hreturns r (List.mem_of_getElem? hr)) hct
    cases hp.symm.trans hp'
    exact ⟨stored, hstored, hres.mpr hret⟩

end RoundTrip

/-! ## A long string in an array -/

section OneColumn

variable {inline payloadLen : ℕ → ℕ} {attempt : ℕ → Except Failure (Option CompBlock)} {max : ℕ}

/-- Attempts that end let the passes end. -/
theorem compressPass_total {c : ℕ} {cand : List ℕ} (h : ∀ i ∈ cand, ∃ comp, attempt i = .ok comp)
    (s : Planning) : ∃ t, compressPass inline payloadLen attempt c max cand s = .ok t := by
  induction cand generalizing s with
  | nil => exact ⟨s, rfl⟩
  | cons i cand ih =>
    by_cases hfits : s.size ≤ max
    · exact ⟨s, compressPass_done hfits⟩
    · obtain ⟨comp, hcomp⟩ := h i List.mem_cons_self
      rw [compressPass_cons hfits, hcomp]
      exact ih (fun j hj => h j (List.mem_cons_of_mem _ hj)) _

/-- A record of one value fits a page, whatever it holds. -/
theorem runPasses_one {spillable : ℕ → Bool} {cap : Cap} {keyLen : ℕ} {s : Planning}
    (h : s.Sized keyLen 1 cap.tag inline) (hspill : spillable 0 = true)
    (hattempt : ∃ comp, attempt 0 = .ok comp) :
    ∃ t, runPasses 1 inline payloadLen spillable attempt cap max s = .ok t ∧
      (t.size ≤ max ∨ t.size ≤ keyLen + (EXTERNAL_COMP_PTR_LEN + cap.tag)) := by
  unfold runPasses
  by_cases hfits : s.size ≤ max
  · exact ⟨s, if_pos hfits, .inl hfits⟩
  · rw [if_neg hfits]
    have hcand : ∀ i ∈ compressCandidates 1 inline payloadLen, ∃ comp, attempt i = .ok comp := by
      intro i hi
      obtain rfl := Nat.lt_one_iff.mp (mem_compressCandidates.mp hi).1
      exact hattempt
    obtain ⟨s', hpass⟩ := compressPass_total hcand s
    have h' := compressPass_sized hpass h fun i hi => (mem_compressCandidates.mp hi).1
    have hsize : s'.size = keyLen + s'.cur 0 := by
      have hadds := h'.adds
      unfold Planning.Adds at hadds
      rwa [Finset.sum_range_one] at hadds
    have hpointer : pointerLen cap.tag (s'.disp 0) ≤ EXTERNAL_COMP_PTR_LEN + cap.tag := by
      unfold pointerLen EXTERNAL_COMP_PTR_LEN EXTERNAL_PTR_LEN
      split <;> omega
    rw [hpass]
    show ∃ t, (if s'.size ≤ max then Except.ok s' else Except.ok _) = Except.ok t ∧ _
    by_cases hfits' : s'.size ≤ max
    · exact ⟨s', if_pos hfits', .inl hfits'⟩
    · refine ⟨_, if_neg hfits', .inr ?_⟩
      by_cases hmove : pointerLen cap.tag (s'.disp 0) < s'.cur 0
      · have hone : externalizeCandidates 1 spillable cap.tag s' = [0] := by
          apply candidates_one
          rw [hspill, Bool.true_and, decide_eq_true hmove]
        rw [hone, externalizePass, if_neg hfits']
        show s'.size - s'.cur 0 + pointerLen cap.tag (s'.disp 0) ≤ _
        omega
      · have hnone : externalizeCandidates 1 spillable cap.tag s' = [] := by
          rw [List.eq_nil_iff_forall_not_mem]
          intro i hi
          obtain ⟨hlt, -, hlong⟩ := mem_externalizeCandidates.mp hi
          obtain rfl := Nat.lt_one_iff.mp hlt
          exact hmove hlong
        rw [hnone]
        show s'.size ≤ _
        omega

end OneColumn

theorem exists_writeChain (h : ¬Unwritable bytes) :
    ∃ first w', writeChain largestPages (· + 1) bytes ⟨0, [], []⟩ = .ok (first, w') ∧
      Fresh (w'.ovf.map (·.1)) := by
  obtain ⟨first, ovf, hchain, hfresh⟩ := exists_chain h
  refine ⟨first, ⟨0 + (chunks largestPages.cap.chain bytes).length, [] ++ ovf, []⟩, ?_, hfresh⟩
  unfold writeChain
  simp only [Nat.zero_add, hchain]
  rfl

/-- A resident value of one column is encoded onto a plaintext page. -/
theorem encodeLeafPax_one {ct : ColType} {v : Value} {payload : Bytes}
    (hknown : Known ct v bytes payload) (hst : Storable ct v) (hspill : isSpillable ct = true)
    (hroom : ¬Unwritable payload) :
    ∃ content w', encodeLeafPax ⟨none, true⟩ largestPages (· + 1) [ct] [([], [.value v])] ⟨0, [], []⟩
        = .ok (content, w') ∧ Fresh (w'.ovf.map (·.1)) ∧
      PAGE_HEADER + content.length ≤ largestPages.ps := by
  have hfacts := hknown.facts hst hspill
  generalize hf : (payload.length + inlineHeaderLen ct, payload.length) = f at hfacts
  have hmap : [(ct, Stored.value v)].mapM columnFacts = .ok [f] := by
    rw [List.mapM_cons, hfacts]
    rfl
  have hattempt : attemptOf [(ct, .value v)] 0 = .ok (some (.owned (Lz4.compress payload))) :=
    attempt_value hknown.content
  have hstart : (startOf 0 [f]).Sized 0 1 largestPages.cap.tag (inlineOf [f]) :=
    ⟨startOf_adds, fun _ => rfl⟩
  obtain ⟨t, hrun, hsize⟩ := @runPasses_one (inlineOf [f]) (lenOf [(ct, .value v)] [f])
    (attemptOf [(ct, .value v)]) (recordMax largestPages.cap.c 1)
    (fun i => [isSpillable ct].getD i false) largestPages.cap 0 _ hstart hspill ⟨_, hattempt⟩
  have hplan : planDispositions [ct] [] [.value v] largestPages.cap = .ok ⟨[t.disp 0], t.size,
      t.compressUnits, t.external, List.zipWith spillLen [(ct, .value v)] [f]⟩ :=
    bind_eq_ok.mpr ⟨[f], hmap, bind_eq_ok.mpr ⟨t, hrun, rfl⟩⟩
  have htells := runPasses_tells hrun (fun _ => rfl) Nat.one_pos
  have hcell : ∃ cell w', encodeCell ⟨none, true⟩ largestPages (· + 1) (ct, .value v) (t.disp 0)
      (spillLen (ct, .value v) f) ⟨0, [], []⟩ = .ok (cell, w') ∧ Fresh (w'.ovf.map (·.1)) := by
    have hnone : Fresh (([] : List (ℕ × Bytes)).map (·.1)) := ⟨List.nodup_nil, nofun⟩
    have hblock : ∀ comp, t.disp 0 = .inlineComp comp ∨ t.disp 0 = .externalComp comp →
        comp = .owned (Lz4.compress payload) ∧ ¬Unwritable (Lz4.compress payload) := by
      intro comp hd
      have hboth : attemptOf [(ct, .value v)] 0 = .ok (some comp) ∧
          INLINE_COMP_OVERHEAD + comp.len < inlineOf [f] 0 := by
        rcases hd with hd | hd <;> (rw [hd] at htells; exact htells)
      obtain ⟨hcomp, hshort⟩ := hboth
      rw [hattempt] at hcomp
      cases hcomp
      refine ⟨rfl, fun hlong => hroom ?_⟩
      have hheader : inlineHeaderLen ct ≤ 3 := by
        unfold inlineHeaderLen
        split
        · split <;> decide
        · decide
      rw [← hf] at hshort
      change 1 + 4 + 2 + (Lz4.compress payload).length < payload.length + inlineHeaderLen ct at hshort
      unfold Unwritable at hlong ⊢
      omega
    unfold encodeCell
    dsimp only
    rw [fixedValueWidth_spillable hspill]
    dsimp only
    rw [show Stored.isNull (.value v) = false from isNull_of_storable hst, if_neg Bool.false_ne_true]
    cases hd : t.disp 0 with
    | inline =>
      exact ⟨bytes, _, bind_eq_ok.mpr ⟨v, rfl, bind_eq_ok.mpr ⟨bytes, hknown.encoded, rfl⟩⟩, hnone⟩
    | external =>
      obtain ⟨first, w', hwrite, hfresh⟩ := exists_writeChain hroom
      exact ⟨_, w', bind_eq_ok.mpr ⟨v, rfl, bind_eq_ok.mpr ⟨payload, hknown.content,
        bind_eq_ok.mpr ⟨(first, w'), hwrite, rfl⟩⟩⟩, hfresh⟩
    | inlineComp comp =>
      obtain ⟨rfl, -⟩ := hblock comp (.inl hd)
      exact ⟨_, _, rfl, hnone⟩
    | externalComp comp =>
      obtain ⟨rfl, hcomp⟩ := hblock comp (.inr hd)
      obtain ⟨first, w', hwrite, hfresh⟩ := exists_writeChain hcomp
      exact ⟨_, w', bind_eq_ok.mpr ⟨_, rfl, bind_eq_ok.mpr ⟨(first, w'), hwrite, rfl⟩⟩, hfresh⟩
  obtain ⟨cell, w', hcell, hfresh⟩ := hcell
  have hrecords : encodeRecords ⟨none, true⟩ largestPages (· + 1) [ct] [([], [.value v])] ⟨0, [], []⟩
      = .ok ([[cell]], w') := by
    refine bind_eq_ok.mpr ⟨_, hplan, bind_eq_ok.mpr ⟨([cell], w'), ?_, rfl⟩⟩
    exact bind_eq_ok.mpr ⟨(cell, w'), hcell, rfl⟩
  have henc : encodeLeafPax ⟨none, true⟩ largestPages (· + 1) [ct] [([], [.value v])] ⟨0, [], []⟩
      = .ok (layLeaf [ct] [([], [.value v])] [[cell]], w') := bind_eq_ok.mpr ⟨_, hrecords, rfl⟩
  refine ⟨_, w', henc, hfresh, ?_⟩
  have hoks : ∀ r ∈ [(([] : Bytes), [Stored.value v])],
      List.Forall₂ (CellOk ⟨none, true⟩) [ct] r.2 := by
    intro r hr
    obtain rfl := List.mem_singleton.mp hr
    exact .cons (.resident hst) .nil
  obtain ⟨hlen, hcols, hsizes⟩ := encodeRecords_sizes hoks hrecords
  rw [layLeaf_length hlen hcols]
  have hrecord : recordSize [ct] [] [.value v] largestPages.cap = .ok t.size := by
    unfold recordSize
    rw [hplan]
    rfl
  rw [List.mapM_cons, hrecord] at hsizes
  have hsum := Except.ok.inj hsizes
  change [t.size] = _ at hsum
  rw [← hsum]
  have hshape : leafShape [ct] = ⟨0, 1⟩ := by
    unfold leafShape
    rw [List.filter_cons, fixedValueWidth_spillable hspill]
    rfl
  rw [hshape]
  have hbound : t.size < 2 ^ 15 := by
    have hmax : recordMax largestPages.cap.c 1 < 2 ^ 15 := by decide
    have hptr : 0 + (EXTERNAL_COMP_PTR_LEN + largestPages.cap.tag) < 2 ^ 15 := by decide
    omega
  show 16 + ([t.size].sum + (4 * 1 + 4 * (0 + 1 + 1) + 0 * (1 + (1 + 7) / 8) + 1 * (1 + 4 * 1))) ≤ 2 ^ 16
  rw [List.sum_singleton]
  omega

/-- A leaf of one array of one string of zeros, which compresses onto its page. -/
def zerosRows (n : ℕ) : List LeafRow := [([], [(.value (zerosArray n), zerosArray n)])]

/-- A nested string of 2¹⁶ bytes or more does not come back from its leaf. -/
theorem zerosRows_lost {n : ℕ} (hn : 2 ^ 16 ≤ n) (hn' : n < 2 ^ 17) : ∃ content w',
    (∀ r ∈ zerosRows n, RowOf ⟨none, true⟩ largestPages [.array (.scalar .bytea)] r) ∧
    encodeLeafPax ⟨none, true⟩ largestPages (· + 1) [.array (.scalar .bytea)]
      ((zerosRows n).map storedRow) ⟨0, [], []⟩ = .ok (content, w') ∧
    Stood (storedBlocks w'.ovf) w' ∧ PAGE_HEADER + content.length ≤ largestPages.ps ∧
    ¬PaxRoundTrips largestPages (storedBlocks w'.ovf) [.array (.scalar .bytea)] (zerosRows n)
      (content ++ List.replicate 0 0) := by
  have hst := storable_zerosArray n
  have hrows : ∀ r ∈ zerosRows n, RowOf ⟨none, true⟩ largestPages [.array (.scalar .bytea)] r := by
    intro r hr
    obtain rfl := List.mem_singleton.mp hr
    exact .cons (.resident hst) .nil
  have hlong : ¬InlineFits (zerosArray n) := by
    intro hfits
    have hshort := hfits.1
    unfold InlineFits at hshort
    rw [List.length_replicate] at hshort
    omega
  have henc : ∃ inline, encodeValue (.array (.scalar .bytea)) (zerosArray n) = .ok inline ∧
      inline.length < 2 ^ 18 := by
    unfold zerosArray
    generalize hs : List.replicate n (0 : UInt8) = s
    have hlen : s.length = n := by rw [← hs, List.length_replicate]
    refine ⟨_, rfl, ?_⟩
    simp [encodeString, encodeArrayDim, signedBytes, isNull, beBytes_length, hlen]
    omega
  obtain ⟨inline, hinline, hshort⟩ := henc
  obtain ⟨payload, hknown⟩ := known_of_encoded hst rfl hinline
  have hroom : ¬Unwritable payload := by
    have := hknown.behind.1
    unfold Unwritable
    omega
  obtain ⟨content, w', hleaf, hfresh, hpage⟩ := encodeLeafPax_one hknown hst rfl hroom
  have hstood : Stood (storedBlocks w'.ovf) w' := ⟨hfresh, storedBlocks_of_mem hfresh.nodup⟩
  refine ⟨content, w', hrows, hleaf, hstood, hpage, ?_⟩
  rintro ⟨dirs', hparse', hhas⟩
  have hsize : (content ++ List.replicate 0 0).length < 2 ^ 16 := by
    rw [List.length_append, List.length_replicate]
    change 16 + content.length ≤ 2 ^ 16 at hpage
    omega
  have hkept : ChainSource.StandsIn ⟨none, true⟩ largestPages (storedBlocks w'.ovf) := by
    intro _ first len raw hraw
    cases hraw
  obtain ⟨dirs, hparse, -, -, hvalue, -⟩ := leaf_of_encoded hrows hkept hleaf hstood hsize
  cases hparse.symm.trans hparse'
  obtain ⟨stored, hstored, hres⟩ := hvalue 0 0 _ _ _ rfl rfl rfl
  obtain ⟨stored', hstored', hres'⟩ := hhas.value 0 0 _ _ _ rfl rfl rfl
  cases hstored.symm.trans hstored'
  exact hlong (hres.mp hres').nested

theorem nested_string_in_a_leaf : ∃ content w',
    (∀ r ∈ zerosRows 65536, RowOf ⟨none, true⟩ largestPages [.array (.scalar .bytea)] r) ∧
    encodeLeafPax ⟨none, true⟩ largestPages (· + 1) [.array (.scalar .bytea)]
      ((zerosRows 65536).map storedRow) ⟨0, [], []⟩ = .ok (content, w') ∧
    Stood (storedBlocks w'.ovf) w' ∧ PAGE_HEADER + content.length ≤ largestPages.ps ∧
    ¬PaxRoundTrips largestPages (storedBlocks w'.ovf) [.array (.scalar .bytea)] (zerosRows 65536)
      (content ++ List.replicate 0 0) :=
  zerosRows_lost le_rfl (by decide)

/-- Two records of an integer and a byte string, one of them NULL. -/
def valueRows : List LeafRow :=
  [([1], [(.value (.int 7), .int 7), (.value (.bytea [97]), .bytea [97])]),
    ([2], [(.value .null, .null), (.value (.bytea [98, 99]), .bytea [98, 99])])]

theorem valueRows_of : ∀ r ∈ valueRows,
    RowOf ⟨none, true⟩ largestPages [.scalar .int32, .scalar .bytea] r := by
  have hint : Storable (.scalar .int32) (.int 7) :=
    .keyed (.int32 ⟨by decide, by decide⟩) fun s hs => by cases hs
  intro r hr
  rcases List.mem_pair.mp hr with rfl | rfl
  · exact .cons (.resident hint) (.cons (.resident (storable_bytea _)) .nil)
  · exact .cons .null (.cons (.resident (storable_bytea _)) .nil)

theorem pax_leaf_round_trips_iff_two : ∃ content w',
    encodeLeafPax ⟨none, true⟩ largestPages (· + 1) [.scalar .int32, .scalar .bytea]
      (valueRows.map storedRow) ⟨0, [], []⟩ = .ok (content, w') ∧
    (PaxRoundTrips largestPages (storedBlocks w'.ovf) [.scalar .int32, .scalar .bytea] valueRows
        (content ++ List.replicate 4 0) ↔
      ∀ r ∈ valueRows, List.Forall₂ (fun ct p => Returns ct p.2) [.scalar .int32, .scalar .bytea] r.2) :=
  ⟨_, _, rfl, (pax_leaf_round_trips_iff ⟨none, true⟩ largestPages (· + 1) (storedBlocks [])
    [.scalar .int32, .scalar .bytea]).1 valueRows ⟨0, [], []⟩ ⟨0, [], []⟩ _ 4 valueRows_of
    (fun _ _ _ _ hraw => by cases hraw) rfl ⟨⟨List.nodup_nil, nofun⟩, nofun⟩ (by decide)⟩

end Jed.Codec
