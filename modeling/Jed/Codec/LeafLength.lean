import Jed.Codec.PlanSizes
import Jed.Codec.StoredForms

/-!
# Records take what is counted of them

The payload of a leaf is as long as the sizes of its records' plans and the directories say, and the
payload of an interior as its separators say.
-/

namespace Jed.Codec

open Key PMap Results

/-- What a record holds in a column: NULL, a value of the type, or one in its stored form. -/
inductive CellOk (src : ChainSource) (ct : ColType) : Stored → Prop where
  | null : CellOk src ct (.value .null)
  | resident {v : Value} (h : Storable ct v) : CellOk src ct (.value v)
  | deferred {v : Value} {u : Unfetched} (h : Storable ct v) (hspill : isSpillable ct = true)
      (hkept : Kept ct v) (hform : StoredForm src ct v u) : CellOk src ct (.unfetched u)

/-- The block of a planned form, or the length of the one on the chain. -/
theorem ChainSource.compBytes_length {src : ChainSource} {ct : ColType} {s : Stored} {comp : CompBlock}
    {bytes : Bytes} (hattempt : attempt ct s = .ok (some comp)) (h : src.compBytes comp s = .ok bytes) :
    bytes.length = comp.len := by
  cases comp with
  | owned block =>
    cases h
    rfl
  | onChain len =>
    cases s with
    | value v =>
      obtain ⟨payload, -, hattempt⟩ := map_eq_ok.mp hattempt
      cases hattempt
    | unfetched u =>
      cases u with
      | inline | external | inlineComp => cases h
      | externalComp first storedLen rawLen =>
        cases hattempt
        exact readChain_length h

section Cells

variable {src : ChainSource} {sealer : Sealer} {fresh : ℕ → ℕ} {ct : ColType} {s : Stored} {f : ℕ × ℕ}
  {d : PlanDisp} {rawLen : ℕ} {w w' : Written} {bytes : Bytes}

theorem encodeStored_inline (hcell : CellOk src ct s) (hnull : s.isNull = false)
    (hfacts : valueFacts ct s = .ok f) (hshort : isSpillable ct = true → f.1 < 2 ^ 16)
    (h : encodeStored src sealer fresh ct s .inline rawLen w = .ok (bytes, w')) : bytes.length = f.1 := by
  cases hcell with
  | null => cases hnull
  | @resident v hst =>
    obtain ⟨v', hv, h⟩ := bind_eq_ok.mp h
    cases hv
    obtain ⟨inline, hinline, h⟩ := bind_eq_ok.mp h
    cases h
    rw [valueFacts, show isNull v = false from hnull, if_neg Bool.false_ne_true] at hfacts
    obtain ⟨inline', hinline', hfacts⟩ := bind_eq_ok.mp hfacts
    cases hinline.symm.trans hinline'
    dsimp only at hfacts
    split at hfacts
    · obtain ⟨payload, -, hfacts⟩ := bind_eq_ok.mp hfacts
      cases hfacts
      rfl
    · cases hfacts
      rfl
  | @deferred v u hst hspill hkept hform =>
    cases hfacts
    have hlarge : u.isLarge = true → (src.residentValue ct (.unfetched u) >>= fun v =>
        encodeValue ct v >>= fun bytes => Except.ok (bytes, w)) = .ok (bytes, w') →
        bytes.length = u.payloadLen ct + inlineHeaderLen ct := by
      intro hlarge h
      obtain ⟨v', hres, h⟩ := bind_eq_ok.mp h
      obtain ⟨inline, henc, h⟩ := bind_eq_ok.mp h
      cases h
      exact hform.inline_length hst hspill hkept hlarge (hshort hspill) hres henc
    cases hform with
    | @inline body henc =>
      cases h
      obtain ⟨payload, hknown⟩ := known_of_encoded hst hspill henc
      have hlen := hknown.behind.1
      rw [List.length_cons] at hlen ⊢
      show _ = 1 + body.length - inlineHeaderLen ct + inlineHeaderLen ct
      omega
    | external | inlineComp | externalComp => exact hlarge rfl h

theorem encodeStored_external (hcell : CellOk src ct s)
    (h : encodeStored src sealer fresh ct s .external rawLen w = .ok (bytes, w')) :
    bytes.length = EXTERNAL_PTR_LEN + sealer.cap.tag := by
  have hmoved : (src.residentValue ct s >>= fun v => valuePayload ct v >>= fun payload =>
      writeChain sealer fresh payload w >>= fun p =>
        Except.ok (externalPointer sealer.cap p.1 payload.length, p.2)) = .ok (bytes, w') →
      bytes.length = EXTERNAL_PTR_LEN + sealer.cap.tag := by
    intro h
    obtain ⟨v, -, h⟩ := bind_eq_ok.mp h
    obtain ⟨payload, -, h⟩ := bind_eq_ok.mp h
    obtain ⟨⟨first, w1⟩, hwrite, h⟩ := bind_eq_ok.mp h
    cases h
    exact length_externalPointer (writeChain_tag hwrite) _
  cases hcell with
  | null | resident => exact hmoved h
  | deferred hst hspill hkept hform =>
    cases hform with
    | inline | inlineComp | externalComp => exact hmoved h
    | external henc hchain =>
      obtain ⟨⟨kept, w1⟩, hkeep, h⟩ := bind_eq_ok.mp h
      cases h
      exact length_externalPointer (ChainSource.keepChain_tag hchain.tag hkeep) _

theorem encodeStored_externalComp (hcell : CellOk src ct s) {comp : CompBlock}
    (h : encodeStored src sealer fresh ct s (.externalComp comp) rawLen w = .ok (bytes, w')) :
    bytes.length = EXTERNAL_COMP_PTR_LEN + sealer.cap.tag := by
  have hmoved : (src.compBytes comp s >>= fun comp => writeChain sealer fresh comp w >>= fun p =>
      Except.ok (externalCompPointer sealer.cap p.1 comp.length rawLen, p.2)) = .ok (bytes, w') →
      bytes.length = EXTERNAL_COMP_PTR_LEN + sealer.cap.tag := by
    intro h
    obtain ⟨block, -, h⟩ := bind_eq_ok.mp h
    obtain ⟨⟨first, w1⟩, hwrite, h⟩ := bind_eq_ok.mp h
    cases h
    exact length_externalCompPointer (writeChain_tag hwrite) _ _
  cases hcell with
  | null | resident => exact hmoved h
  | deferred hst hspill hkept hform =>
    cases hform with
    | inline | inlineComp | external => exact hmoved h
    | externalComp henc hchain =>
      obtain ⟨⟨kept, w1⟩, hkeep, h⟩ := bind_eq_ok.mp h
      cases h
      exact length_externalCompPointer (ChainSource.keepChain_tag hchain.tag hkeep) _ _

/-- A value takes what the plan counts for its form. -/
theorem encodeStored_length (hcell : CellOk src ct s) (hnull : s.isNull = false)
    (hfacts : valueFacts ct s = .ok f)
    (hblock : ∀ comp, d = .inlineComp comp → attempt ct s = .ok (some comp))
    (hshort : d = .inline → isSpillable ct = true → f.1 < 2 ^ 16)
    (h : encodeStored src sealer fresh ct s d rawLen w = .ok (bytes, w')) :
    bytes.length = formLen f.1 sealer.cap.tag d := by
  cases d with
  | inline => exact encodeStored_inline hcell hnull hfacts (hshort rfl) h
  | external => exact encodeStored_external hcell h
  | externalComp comp => exact encodeStored_externalComp hcell h
  | inlineComp comp =>
    obtain ⟨block, hbytes, h⟩ := bind_eq_ok.mp h
    cases h
    have hlen := ChainSource.compBytes_length (hblock comp rfl) hbytes
    simp only [formLen, INLINE_COMP_OVERHEAD, List.length_cons, List.length_append, beBytes_length, hlen]
    omega

/-- So does a cell. -/
theorem encodeCell_length (hcell : CellOk src ct s) (hfacts : columnFacts (ct, s) = .ok f)
    (hblock : ∀ comp, d = .inlineComp comp → attempt ct s = .ok (some comp))
    (hsmall : fixedValueWidth ct ≠ none ∨ s.isNull = true → d = .inline)
    (hshort : d = .inline → isSpillable ct = true → f.1 < 2 ^ 16)
    (h : encodeCell src sealer fresh (ct, s) d rawLen w = .ok (bytes, w')) :
    bytes.length = formLen f.1 sealer.cap.tag d := by
  unfold encodeCell at h
  unfold columnFacts at hfacts
  dsimp only at h hfacts
  cases hwidth : fixedValueWidth ct with
  | some width =>
    rw [hwidth] at h hfacts
    cases hfacts
    obtain rfl := hsmall (.inl (by rw [hwidth]; exact Option.some_ne_none _))
    show bytes.length = width
    cases hcell with
    | null =>
      cases h
      exact List.length_replicate
    | @resident v hst =>
      dsimp only at h
      rw [show Stored.isNull (.value v) = false from isNull_of_storable hst,
        if_neg Bool.false_ne_true] at h
      obtain ⟨inline, henc, h⟩ := map_eq_ok.mp h
      cases h
      exact encodeValue_fixed hst hwidth henc
    | deferred hst hspill =>
      rw [fixedValueWidth_spillable hspill] at hwidth
      cases hwidth
  | none =>
    rw [hwidth] at h hfacts
    dsimp only at h hfacts
    by_cases hnull : s.isNull = true
    · rw [if_pos hnull] at h
      obtain rfl := hsmall (.inr hnull)
      cases h
      cases hcell with
      | null =>
        cases hfacts
        rfl
      | resident hst => exact absurd hnull (by rw [Stored.isNull, isNull_of_storable hst]; decide)
      | deferred => cases hnull
    · rw [if_neg hnull] at h
      exact encodeStored_length hcell (Bool.not_eq_true _ ▸ hnull) hfacts hblock hshort h

end Cells

theorem encodeCells_lengths {cell : ColType × Stored → PlanDisp → ℕ → Written →
      Except Failure (Bytes × Written)} {cols : List (ColType × Stored)} :
    ∀ {disps : List PlanDisp} {lens : List ℕ} {w w' : Written} {cells : List Bytes} {want : ℕ → ℕ},
      encodeCells cell cols disps lens w = .ok (cells, w') →
      (∀ i c d, cols[i]? = some c → disps[i]? = some d → ∀ n w b w', cell c d n w = .ok (b, w') →
        b.length = want i) →
      cells.map List.length = (List.range cols.length).map want := by
  induction cols with
  | nil =>
    intro disps lens w w' cells want h _
    cases h
    rfl
  | cons c cols ih =>
    intro disps lens w w' cells want h hcell
    cases disps with
    | nil => cases h
    | cons d disps =>
      cases lens with
      | nil => cases h
      | cons n lens =>
        obtain ⟨⟨b, w1⟩, hb, h⟩ := bind_eq_ok.mp h
        obtain ⟨⟨rest, w2⟩, hrest, h⟩ := bind_eq_ok.mp h
        cases h
        have htail : rest.map List.length = (List.range cols.length).map fun i => want (i + 1) :=
          ih hrest fun i c d hc hd => hcell (i + 1) c d hc hd
        rw [List.map_cons, htail, hcell 0 c d rfl rfl n w b w1 hb, List.length_cons,
          List.range_succ_eq_map, List.map_cons, List.map_map]
        rfl

theorem sum_range_eq (f : ℕ → ℕ) (n : ℕ) : ∑ j ∈ Finset.range n, f j = ((List.range n).map f).sum := by
  induction n with
  | zero => rfl
  | succ n ih => rw [Finset.sum_range_succ, ih, List.range_succ, List.map_append, List.sum_append,
      List.map_singleton, List.sum_singleton]

theorem Sealer.record_bounds (sealer : Sealer) (k : ℕ) :
    recordMax sealer.cap.c k < 2 ^ 16 ∧ EXTERNAL_PTR_LEN + sealer.cap.tag < 2 ^ 16 := by
  have hc := sealer.cap_c_le
  have htag := sealer.cap_tag_le
  unfold recordMax EXTERNAL_PTR_LEN TAG_LEN at *
  omega

variable {colTypes : List ColType}

/-- The values of a record and its key take what its plan counts. -/
theorem encodeCells_size {src : ChainSource} {sealer : Sealer} {fresh : ℕ → ℕ}
    {key : Bytes} {row : List Stored} {plan : RecordPlan} {w w' : Written} {cells : List Bytes}
    (hrow : List.Forall₂ (CellOk src) colTypes row)
    (hplan : planDispositions colTypes key row sealer.cap = .ok plan)
    (h : encodeCells (encodeCell src sealer fresh) (colTypes.zip row) plan.disp plan.payloadLen w
      = .ok (cells, w')) :
    cells.length = colTypes.length ∧ plan.size = key.length + (cells.map List.length).sum := by
  obtain ⟨facts, t, hof⟩ := planDispositions_ok hplan
  have hstart : (startOf key.length facts).Sized key.length (colTypes.zip row).length sealer.cap.tag
      (inlineOf facts) := by
    refine ⟨?_, fun _ => rfl⟩
    rw [(forall₂_of_mapM hof.known).length_eq]
    exact startOf_adds
  have hsized := runPasses_sized hof.run hstart
  have hbounds := sealer.record_bounds (colTypes.zip row).length
  have hlens : cells.map List.length = (List.range (colTypes.zip row).length).map t.cur := by
    refine encodeCells_lengths h fun i c d hc hd n w b w' hb => ?_
    obtain ⟨ct, s⟩ := c
    have hi := (List.getElem?_eq_some_iff.mp hc).1
    obtain ⟨f, hf, hfacts⟩ := exists_of_forall₂ (forall₂_of_mapM hof.known) hc
    have hcell : CellOk src ct s := List.forall₂_iff_zip.mp hrow |>.2 (List.mem_of_getElem? hc)
    have hinline : inlineOf facts i = f.1 := getD_of_getElem? (by rw [List.getElem?_map, hf]; rfl)
    have hspill : ((colTypes.zip row).map (isSpillable ·.1)).getD i false = isSpillable ct :=
      getD_of_getElem? (by rw [List.getElem?_map, hc]; rfl)
    have hlen : lenOf (colTypes.zip row) facts i = spillLen (ct, s) f :=
      getD_of_getElem? (by rw [List.getElem?_zipWith, hc, hf])
    have hdisp : t.disp i = d := by
      rw [hof.made, List.getElem?_map, List.getElem?_range hi] at hd
      exact Option.some.inj hd
    have htells := runPasses_tells hof.run (fun _ => rfl) hi
    rw [hsized.forms, hinline, hdisp]
    rw [hdisp] at htells
    refine encodeCell_length hcell hfacts ?_ ?_ ?_ hb
    · rintro comp rfl
      have hattempt : attemptOf (colTypes.zip row) i = .ok (some comp) := htells.1
      rw [attemptOf, hc] at hattempt
      exact hattempt
    · intro hsmall
      rw [← hdisp]
      refine runPasses_small hof.run hstart rfl ?_ ?_
      · show lenOf (colTypes.zip row) facts i < S_COMPRESS
        rw [hlen, spillLen]
        split
        · rename_i hboth
          rw [Bool.and_eq_true] at hboth
          cases hsmall with
          | inl hwidth => exact absurd (fixedValueWidth_spillable hboth.1) hwidth
          | inr hnull =>
            rw [hnull] at hboth
            exact absurd hboth.2 Bool.false_ne_true
        · decide
      · rw [hspill]
        cases hsmall with
        | inl hwidth =>
          left
          cases hs : isSpillable ct with
          | false => rfl
          | true => exact absurd (fixedValueWidth_spillable hs) hwidth
        | inr hnull =>
          by_cases hwidth : fixedValueWidth ct = none
          · right
            rw [hinline]
            cases hcell with
            | null =>
              unfold columnFacts at hfacts
              dsimp only at hfacts
              rw [hwidth] at hfacts
              cases hfacts
              exact Nat.zero_le _
            | resident hst => exact absurd hnull (by rw [Stored.isNull, isNull_of_storable hst]; decide)
            | deferred => cases hnull
          · left
            cases hs : isSpillable ct with
            | false => rfl
            | true => exact absurd (fixedValueWidth_spillable hs) hwidth
    · rintro rfl hs
      have := runPasses_inline hof.run hstart hi (hspill.trans hs) hdisp
      rw [hinline] at this
      omega
  constructor
  · have := congrArg List.length hlens
    rw [List.length_map, List.length_map, List.length_range, List.length_zip, ← hrow.length_eq,
      min_self] at this
    exact this
  · rw [hlens, ← sum_range_eq]
    have := hsized.adds
    rw [hof.made]
    exact this

variable {records : List (Bytes × List Stored)}

/-- What the records of a leaf are encoded to. -/
theorem encodeRecords_sizes {src : ChainSource} {sealer : Sealer} {fresh : ℕ → ℕ}
    :
    ∀ {w w' : Written} {cells : List (List Bytes)},
      (∀ r ∈ records, List.Forall₂ (CellOk src) colTypes r.2) →
      encodeRecords src sealer fresh colTypes records w = .ok (cells, w') →
      cells.length = records.length ∧ (∀ cs ∈ cells, cs.length = colTypes.length) ∧
        records.mapM (fun r => recordSize colTypes r.1 r.2 sealer.cap) = .ok
          (List.zipWith (fun r cs => r.1.length + (cs.map List.length).sum) records cells) := by
  induction records with
  | nil =>
    intro w w' cells _ h
    cases h
    exact ⟨rfl, fun _ hcs => (by cases hcs), rfl⟩
  | cons r records ih =>
    intro w w' cells hrows h
    obtain ⟨key, row⟩ := r
    obtain ⟨plan, hplan, h⟩ := bind_eq_ok.mp h
    obtain ⟨⟨cs, w1⟩, hcells, h⟩ := bind_eq_ok.mp h
    obtain ⟨⟨rest, w2⟩, hrest, h⟩ := bind_eq_ok.mp h
    cases h
    obtain ⟨hlen, hsize⟩ := encodeCells_size (hrows (key, row) List.mem_cons_self) hplan hcells
    obtain ⟨hlens, hcols, hsizes⟩ := ih (fun r hr => hrows r (List.mem_cons_of_mem _ hr)) hrest
    refine ⟨congrArg (· + 1) hlens, ?_, ?_⟩
    · intro cs' hcs
      cases List.mem_cons.mp hcs with
      | inl heq => exact heq ▸ hlen
      | inr hcs => exact hcols cs' hcs
    · have hrecord : recordSize colTypes key row sealer.cap = .ok plan.size := by
        rw [recordSize, hplan]
        rfl
      rw [List.mapM_cons, hrecord, hsizes, List.zipWith_cons_cons, hsize]
      rfl

theorem endOffsets_length (off : ℕ) (lens : List ℕ) : (endOffsets off lens).length = lens.length := by
  induction lens generalizing off with
  | nil => rfl
  | cons len lens ih => exact congrArg (· + 1) (ih _)

theorem length_flatMap_beBytes (w : ℕ) (ns : List ℕ) : (ns.flatMap (beBytes w)).length = w * ns.length := by
  induction ns with
  | nil => rfl
  | cons n ns ih =>
    rw [List.flatMap_cons, List.length_append, ih, beBytes_length, List.length_cons, Nat.mul_succ]
    omega

theorem directory_length (parts : List Bytes) : (directory parts).length = 4 * parts.length := by
  rw [directory, length_flatMap_beBytes, endOffsets_length, List.length_map]

/-- What a region of `n` records takes besides its values. -/
def regionOverhead (n : ℕ) (ct : ColType) : ℕ :=
  1 + if (fixedValueWidth ct).isSome then (n + 7) / 8 else 4 * n

theorem region_length (ct : ColType) {nulls : List Bool} {bodies : List Bytes} {n : ℕ}
    (hnulls : nulls.length = n) (hbodies : bodies.length = n) :
    (region ct nulls bodies).length = regionOverhead n ct + (bodies.map List.length).sum := by
  unfold region regionOverhead
  cases fixedValueWidth ct with
  | some width =>
    simp only [List.length_cons, List.length_append, nullBitmap_length, hnulls, List.length_flatten,
      Option.isSome_some, if_true]
    omega
  | none =>
    simp only [List.length_cons, List.length_append, directory_length, hbodies, List.length_flatten,
      Option.isSome_none, Bool.false_eq_true, if_false]
    omega

/-- The regions' overhead is that of the leaf's shape. -/
theorem sum_regionOverhead (n : ℕ) (colTypes : List ColType) :
    (colTypes.map (regionOverhead n)).sum =
      (leafShape colTypes).fixed * (1 + (n + 7) / 8) + (leafShape colTypes).var * (1 + 4 * n) := by
  induction colTypes with
  | nil => simp [leafShape]
  | cons ct colTypes ih =>
    have hle : (colTypes.filter fun ct => (fixedValueWidth ct).isSome).length ≤ colTypes.length :=
      List.length_filter_le _ _
    have hfilter : ((ct :: colTypes).filter fun ct => (fixedValueWidth ct).isSome).length =
        (if (fixedValueWidth ct).isSome then 1 else 0)
          + (colTypes.filter fun ct => (fixedValueWidth ct).isSome).length := by
      rw [List.filter_cons]
      split
      · rw [List.length_cons, Nat.add_comm]
      · rw [Nat.zero_add]
    rw [List.map_cons, List.sum_cons, ih]
    unfold leafShape regionOverhead
    dsimp only
    rw [hfilter, List.length_cons]
    split
    · rw [Nat.add_comm 1 (List.length _), Nat.add_sub_add_right]
      ring
    · rw [Nat.zero_add, Nat.sub_add_comm hle]
      ring

theorem leafShape_k (colTypes : List ColType) : (leafShape colTypes).k = colTypes.length := by
  have hle : (colTypes.filter fun ct => (fixedValueWidth ct).isSome).length ≤ colTypes.length :=
    List.length_filter_le _ _
  unfold leafShape LeafShape.k
  dsimp only
  omega

theorem columnOf_cons {cs : List Bytes} {c : ℕ} (h : c < cs.length) (cells : List (List Bytes)) :
    columnOf (cs :: cells) c = cs[c] :: columnOf cells c := by
  simp only [columnOf, List.filterMap_cons, List.getElem?_eq_getElem h]

variable {cells : List (List Bytes)}

theorem columnOf_length {c : ℕ} (h : ∀ cs ∈ cells, c < cs.length) :
    (columnOf cells c).length = cells.length := by
  induction cells with
  | nil => rfl
  | cons cs cells ih =>
    rw [columnOf_cons (h cs List.mem_cons_self), List.length_cons, List.length_cons,
      ih fun cs hcs => h cs (List.mem_cons_of_mem _ hcs)]

/-- The values of all columns are those of all records. -/
theorem sum_columnOf {k : ℕ} (h : ∀ cs ∈ cells, cs.length = k) :
    ((List.range k).map fun c => ((columnOf cells c).map List.length).sum).sum
      = (cells.map fun cs => (cs.map List.length).sum).sum := by
  induction cells with
  | nil => simp [columnOf]
  | cons cs cells ih =>
    have hcs : cs.length = k := h cs List.mem_cons_self
    have hcols : ∀ c ∈ List.range k, ((columnOf (cs :: cells) c).map List.length).sum
        = (cs.getD c []).length + ((columnOf cells c).map List.length).sum := by
      intro c hc
      have hlt : c < cs.length := hcs ▸ List.mem_range.mp hc
      rw [columnOf_cons hlt, List.map_cons, List.sum_cons, List.getD_eq_getElem?_getD,
        List.getElem?_eq_getElem hlt, Option.getD_some]
    have hrow : ((List.range k).map fun c => (cs.getD c []).length) = cs.map List.length := by
      rw [← hcs]
      apply List.ext_getElem
      · rw [List.length_map, List.length_range, List.length_map]
      · intro i h1 h2
        rw [List.length_map] at h2
        rw [List.getElem_map, List.getElem_map, List.getElem_range, List.getD_eq_getElem?_getD,
          List.getElem?_eq_getElem h2]
        rfl
    rw [List.map_congr_left hcols, List.sum_map_add, hrow,
      ih fun cs hcs => h cs (List.mem_cons_of_mem _ hcs), List.map_cons, List.sum_cons]

theorem sum_zipIdx (f : ColType → ℕ) (g : ℕ → ℕ) (colTypes : List ColType) :
    (colTypes.zipIdx.map fun c => f c.1 + g c.2).sum
      = (colTypes.map f).sum + ((List.range colTypes.length).map g).sum := by
  have hfst : colTypes.zipIdx.map (fun c => f c.1) = colTypes.map f := by
    conv_rhs => rw [← List.zipIdx_map_fst 0 colTypes]
    exact List.map_map.symm
  have hsnd : colTypes.zipIdx.map (fun c => g c.2) = (List.range colTypes.length).map g := by
    rw [List.range_eq_range', ← List.zipIdx_map_snd 0 colTypes]
    exact List.map_map.symm
  rw [List.sum_map_add, hfst, hsnd]

theorem sum_zipWith_size (h : cells.length = records.length) :
    (List.zipWith (fun r cs => r.1.length + (cs.map List.length).sum) records cells).sum
      = ((records.map Prod.fst).map List.length).sum + (cells.map fun cs => (cs.map List.length).sum).sum := by
  induction records generalizing cells with
  | nil =>
    cases List.length_eq_zero_iff.mp h
    rfl
  | cons r records ih =>
    cases cells with
    | nil => cases h
    | cons cs cells =>
      have htail := ih (Nat.succ.inj h)
      simp only [List.zipWith_cons_cons, List.map_cons, List.sum_cons, htail]
      omega

/-- A leaf takes its keys, its values and its overhead. -/
theorem layLeaf_length
    (hlen : cells.length = records.length)
    (hcols : ∀ cs ∈ cells, cs.length = colTypes.length) :
    (layLeaf colTypes records cells).length =
      (List.zipWith (fun r cs => r.1.length + (cs.map List.length).sum) records cells).sum
        + leafOverhead records.length (leafShape colTypes) := by
  have hregions : (colTypes.zipIdx.flatMap fun c => region c.1 (nullsOf records c.2)
      (columnOf cells c.2)).length = (colTypes.map (regionOverhead records.length)).sum
        + (cells.map fun cs => (cs.map List.length).sum).sum := by
    rw [List.length_flatMap, ← sum_columnOf hcols, ← sum_zipIdx]
    refine congrArg List.sum (List.map_congr_left fun c hc => ?_)
    obtain ⟨ct, i⟩ := c
    have hi : i < colTypes.length := by
      have := List.mem_zipIdx hc
      omega
    refine region_length ct (List.length_map _) ?_
    rw [columnOf_length fun cs hcs => by rw [hcols cs hcs]; exact hi, hlen]
  unfold layLeaf
  dsimp only
  rw [List.length_append, List.length_append, List.length_append, directory_length,
    length_flatMap_beBytes, List.length_cons, endOffsets_length, List.length_map, List.length_map, List.length_zipIdx,
    hregions, sum_regionOverhead, sum_zipWith_size hlen, List.length_flatten, leafOverhead, leafShape_k]
  omega

theorem encodeInterior_length {sealer : Sealer} {seps : List Bytes} {childPages : List PageRef}
    (hlen : childPages.length = seps.length + 1) (htags : ∀ p ∈ childPages, p.tag.length = TAG_LEN) :
    (encodeInterior seps childPages sealer.cap).length = interiorPayload sealer.cap seps := by
  have hpush : (childPages.flatMap (·.push sealer.cap)).length = sealer.cap.ptr * childPages.length := by
    clear hlen
    induction childPages with
    | nil => rfl
    | cons p childPages ih =>
      have htag := sealer.cap_tag_le
      have hp := htags p List.mem_cons_self
      rw [List.flatMap_cons, List.length_append, ih fun q hq => htags q (List.mem_cons_of_mem _ hq),
        List.length_cons, PageRef.push, List.length_append, beBytes_length, List.length_take, hp,
        Nat.min_eq_left htag, Nat.mul_succ, Cap.ptr]
      omega
  rw [encodeInterior, List.length_append, List.length_append, hpush, directory_length,
    List.length_flatten, hlen, interiorPayload]
  omega

/-- A leaf's payload is as long as the sizes of its records and its overhead, and an interior's as its
    separators ask for. -/
theorem payload_lengths (sealer : Sealer) :
    (∀ (src : ChainSource) (fresh : ℕ → ℕ) (colTypes : List ColType)
        (records : List (Bytes × List Stored)) (w w' : Written) (payload : Bytes),
      (∀ r ∈ records, List.Forall₂ (CellOk src) colTypes r.2) →
      encodeLeafPax src sealer fresh colTypes records w = .ok (payload, w') →
      ∃ sizes, records.mapM (fun r => recordSize colTypes r.1 r.2 sealer.cap) = .ok sizes ∧
        payload.length = sizes.sum + leafOverhead records.length (leafShape colTypes)) ∧
      ∀ (seps : List Bytes) (childPages : List PageRef), childPages.length = seps.length + 1 →
        (∀ p ∈ childPages, p.tag.length = TAG_LEN) →
        (encodeInterior seps childPages sealer.cap).length = interiorPayload sealer.cap seps := by
  constructor
  · intro src fresh colTypes records w w' payload hrows h
    obtain ⟨⟨cells, w1⟩, hcells, h⟩ := bind_eq_ok.mp h
    cases h
    obtain ⟨hlen, hcols, hsizes⟩ := encodeRecords_sizes hrows hcells
    exact ⟨_, hsizes, layLeaf_length hlen hcols⟩
  · exact fun seps childPages => encodeInterior_length

/-- Two records of an integer and a byte string: the first of values, the second of a NULL and a string
    that was read off a leaf and left as it is. -/
def twoRecords : List (Bytes × List Stored) :=
  [([1], [.value (.int 7), .value (.bytea [97])]), ([2], [.value .null, .unfetched (.inline [0, 1, 98])])]

theorem twoRecords_ok : ∀ r ∈ twoRecords,
    List.Forall₂ (CellOk ⟨none, true⟩) [.scalar .int32, .scalar .bytea] r.2 := by
  have hint : Storable (.scalar .int32) (.int 7) :=
    .keyed (.int32 ⟨by decide, by decide⟩) fun s hs => by cases hs
  have hkept : Kept (.scalar .bytea) (.bytea [98]) := fun payload hpayload => by
    cases hpayload
    exact .inl (by decide)
  intro r hr
  rcases List.mem_pair.mp hr with rfl | rfl
  · exact .cons (.resident hint) (.cons (.resident (storable_bytea _)) .nil)
  · exact .cons .null (.cons (.deferred (storable_bytea [98]) rfl hkept (.inline rfl)) .nil)

theorem payload_lengths_two : ∃ payload w', encodeLeafPax ⟨none, true⟩ largestPages (· + 1)
      [.scalar .int32, .scalar .bytea] twoRecords ⟨0, [], []⟩ = .ok (payload, w') ∧
    ∃ sizes, twoRecords.mapM (fun r => recordSize [.scalar .int32, .scalar .bytea] r.1 r.2
        largestPages.cap) = .ok sizes ∧
      payload.length = sizes.sum + leafOverhead 2 (leafShape [.scalar .int32, .scalar .bytea]) :=
  ⟨_, _, rfl, (payload_lengths largestPages).1 ⟨none, true⟩ (· + 1) _ twoRecords ⟨0, [], []⟩ _ _
    twoRecords_ok rfl⟩

end Jed.Codec
