import Jed.Codec.LeafLength
import Jed.Codec.PaxLeaf

/-!
# What is laid by columns is found by its offsets

The directories of a leaf's payload parse whatever follows it on the page, and they find every key, NULL
and value where the layout put it.
-/

namespace Jed.Codec

open Readers Key PMap Results

variable {i : ℕ} {lens : List ℕ}

theorem endOffsets_getElem? (off : ℕ) (hi : i < lens.length) :
    (endOffsets off lens)[i]? = some (off + (lens.take (i + 1)).sum) := by
  induction lens generalizing off i with
  | nil => exact absurd hi (Nat.not_lt_zero i)
  | cons len lens ih =>
    cases i with
    | zero => simp [endOffsets]
    | succ i =>
      have htail := ih (off + len) (Nat.lt_of_succ_lt_succ hi)
      rw [endOffsets, List.getElem?_cons_succ, htail, List.take_succ_cons, List.sum_cons, Nat.add_assoc]

theorem drop_flatMap_beBytes {ns : List ℕ} {e : ℕ} (hi : ns[i]? = some e) :
    ∃ more, (ns.flatMap (beBytes 4)).drop (i * 4) = beBytes 4 e ++ more := by
  induction ns generalizing i with
  | nil => cases hi
  | cons n ns ih =>
    cases i with
    | zero =>
      cases hi
      exact ⟨ns.flatMap (beBytes 4), rfl⟩
    | succ i =>
      obtain ⟨more, hmore⟩ := ih hi
      refine ⟨more, ?_⟩
      have hlen : (beBytes 4 n).length = 4 := beBytes_length 4 n
      rw [List.flatMap_cons, List.drop_append, List.drop_eq_nil_of_le (by omega), List.nil_append, hlen,
        show (i + 1) * 4 - 4 = i * 4 by omega, hmore]

variable {payload pre post : Bytes} {pos : ℕ}

/-- A number of those that are laid one after another. -/
theorem readU32At_flatMap {ns : List ℕ} {e : ℕ}
    (hp : payload = pre ++ (ns.flatMap (beBytes 4) ++ post)) (hpos : pos = pre.length + i * 4)
    (hi : ns[i]? = some e) (he : e < 2 ^ 32) : readU32At payload pos = .ok e := by
  obtain ⟨more, hmore⟩ := drop_flatMap_beBytes hi
  have hin : i * 4 ≤ (ns.flatMap (beBytes 4)).length := by
    have := (List.getElem?_eq_some_iff.mp hi).1
    rw [length_flatMap_beBytes]
    omega
  have hdrop : payload.drop pos = beBytes 4 e ++ (more ++ post) := by
    rw [hp, hpos, List.drop_append, List.drop_eq_nil_of_le (by omega), List.nil_append,
      Nat.add_sub_cancel_left, List.drop_append_of_le_length hin, hmore, List.append_assoc]
  have hread := reads_readBe (w := 4) (n := e) he (more ++ post)
  rw [readU32At, hdrop]
  show Except.map _ (readBe 4 (beBytes 4 e ++ (more ++ post))) = _
  rw [hread]
  rfl

/-- A directory at an offset of a payload. -/
structure Lies (payload : Bytes) (pos : ℕ) (lens : List ℕ) : Prop where
  entries : ∀ i < lens.length, readU32At payload (pos + i * 4) = .ok (lens.take (i + 1)).sum

theorem lies_of_directory {parts : List Bytes}
    (hp : payload = pre ++ (directory parts ++ post)) (hlen : parts.flatten.length < 2 ^ 32) :
    Lies payload pre.length (parts.map List.length) := by
  refine ⟨fun i hi => ?_⟩
  have hentry := endOffsets_getElem? 0 hi
  rw [Nat.zero_add] at hentry
  refine readU32At_flatMap hp rfl hentry (lt_of_le_of_lt ?_ hlen)
  rw [List.length_flatten]
  exact (List.take_sublist _ _).sum_le_sum fun _ _ => Nat.zero_le _

theorem Lies.stop (h : Lies payload pos lens)
    (hi : i < lens.length) : endOffset payload pos i = .ok (lens.take (i + 1)).sum :=
  endOffset_of_read (h.entries i hi)

theorem Lies.start (h : Lies payload pos lens)
    (hi : i < lens.length) : startOffset payload pos i = .ok (lens.take i).sum := by
  cases i with
  | zero => rfl
  | succ i => exact h.stop (Nat.lt_of_succ_lt hi)

/-- Its offsets ascend, from any of them on. -/
theorem readEnds_of {payload : Bytes} {message : String} {lens : List ℕ} :
    ∀ {pos prev : ℕ}, (∀ i < lens.length,
        readU32At payload (pos + i * 4) = .ok (prev + (lens.take (i + 1)).sum)) →
      readEnds payload message lens.length pos prev = .ok (pos + 4 * lens.length, prev + lens.sum) := by
  induction lens with
  | nil => exact fun _ => rfl
  | cons len lens ih =>
    intro pos prev h
    have hfirst := h 0 (Nat.succ_pos _)
    rw [Nat.zero_mul, Nat.add_zero, List.take_succ_cons, List.take_zero, List.sum_singleton] at hfirst
    have hrest := @ih (pos + 4) (prev + len) fun i hi => by
      have := h (i + 1) (Nat.succ_lt_succ hi)
      rw [List.take_succ_cons, List.sum_cons] at this
      rw [show pos + 4 + i * 4 = pos + (i + 1) * 4 by omega, this, Nat.add_assoc]
    rw [List.length_cons, readEnds, hfirst]
    show (if prev + len < prev then throw _ else readEnds payload message lens.length (pos + 4) (prev + len)) = _
    rw [if_neg (by omega), hrest, List.sum_cons]
    congr 2 <;> omega

theorem Lies.readEnds (h : Lies payload pos lens) (message : String) :
    readEnds payload message lens.length pos 0 = .ok (pos + 4 * lens.length, lens.sum) := by
  have := @readEnds_of payload message lens pos 0 fun i hi => by
    rw [Nat.zero_add]
    exact h.entries i hi
  rwa [Nat.zero_add] at this

/-- A part, where the parts before it end. -/
theorem drop_parts {parts : List Bytes} {b : Bytes}
    (hp : payload = pre ++ (parts.flatten ++ post)) (hi : parts[i]? = some b) :
    ∃ more, payload.drop (pre.length + ((parts.map List.length).take i).sum) = b ++ more := by
  obtain ⟨hlt, rfl⟩ := List.getElem?_eq_some_iff.mp hi
  have hin : ((parts.map List.length).take i).sum ≤ parts.flatten.length := by
    rw [List.length_flatten]
    exact (List.take_sublist _ _).sum_le_sum fun _ _ => Nat.zero_le _
  refine ⟨(parts.drop (i + 1)).flatten ++ post, ?_⟩
  rw [hp, List.drop_append, List.drop_eq_nil_of_le (by omega), List.nil_append,
    Nat.add_sub_cancel_left, List.drop_append_of_le_length hin, List.drop_sum_flatten,
    List.drop_eq_getElem_cons hlt, List.flatten_cons, List.append_assoc]

/-- A column as it is laid. -/
structure Column where
  ct : ColType
  nulls : List Bool
  bodies : List Bytes

/-- A column of `n` records, whose slots are of its width; a NULL has no bytes where it has no bit. -/
structure Column.Ok (n : ℕ) (x : Column) : Prop where
  nulls : x.nulls.length = n
  bodies : x.bodies.length = n
  slots : ∀ width, fixedValueWidth x.ct = some width → ∀ b ∈ x.bodies, b.length = width
  spans : fixedValueWidth x.ct = none → ∀ (i : ℕ) (null : Bool) (b : Bytes),
    x.nulls[i]? = some null → x.bodies[i]? = some b → (null = true ↔ b = [])

def Column.region (x : Column) : Bytes := Codec.region x.ct x.nulls x.bodies

/-- What is between the flags and the values. -/
def Column.front (x : Column) : Bytes :=
  match fixedValueWidth x.ct with
  | some _ => nullBitmap x.nulls
  | none => directory x.bodies

/-- The shape of a region that starts at `start`. -/
def regionDir (n : ℕ) (ct : ColType) (start : ℕ) : RegionDir :=
  match fixedValueWidth ct with
  | some width => .fixed width (start + 1) (start + 1 + (n + 7) / 8)
  | none => .var (start + 1) (start + 1 + 4 * n)

variable {n : ℕ} {x : Column}

theorem Column.Ok.sum_fixed {width : ℕ} (h : x.Ok n)
    (hwidth : fixedValueWidth x.ct = some width) : (x.bodies.map List.length) = List.replicate n width := by
  rw [List.eq_replicate_iff, List.length_map, h.bodies]
  refine ⟨rfl, fun len hlen => ?_⟩
  obtain ⟨b, hb, rfl⟩ := List.mem_map.mp hlen
  exact h.slots width hwidth b hb

theorem readU8At_append {b : UInt8} (hp : payload = pre ++ b :: post) :
    readU8At payload pre.length = .ok b := by
  rw [hp, readU8At, List.drop_left]
  show Except.map _ (readU8 ([b] ++ post)) = _
  rw [reads_readU8 b post]
  rfl

theorem region_split (hp : payload = pre ++ (x.region ++ post)) :
    payload = (pre ++ [0x00]) ++ (x.front ++ (x.bodies.flatten ++ post)) := by
  have hregion : x.region = 0x00 :: (x.front ++ x.bodies.flatten) := rfl
  rw [hp, hregion]
  simp only [List.append_assoc, List.cons_append, List.nil_append]

theorem parseRegion_of (h : x.Ok n)
    (hp : payload = pre ++ (x.region ++ post)) (hsmall : payload.length < 2 ^ 32) :
    parseRegion payload n x.ct pre.length (pre.length + x.region.length)
      = .ok (regionDir n x.ct pre.length) := by
  have hin : pre.length + x.region.length ≤ payload.length := by
    rw [hp, List.length_append, List.length_append]
    omega
  have hsplit := region_split hp
  have hcons : payload = pre ++ 0x00 :: (x.front ++ (x.bodies.flatten ++ post)) := by
    rw [hsplit, List.append_assoc]
    rfl
  have hflags := readU8At_append hcons
  have hlen := region_length x.ct h.nulls h.bodies
  change x.region.length = _ at hlen
  unfold regionOverhead at hlen
  rw [parseRegion, if_neg (by omega), hflags]
  show regionShape payload n x.ct pre.length (pre.length + x.region.length) = _
  unfold regionShape regionDir
  cases hwidth : fixedValueWidth x.ct with
  | some width =>
    rw [hwidth, h.sum_fixed hwidth, List.sum_replicate, smul_eq_mul] at hlen
    rw [Option.isSome_some, if_pos rfl] at hlen
    dsimp only
    rw [if_neg (by omega)]
  | none =>
    have hfront : x.front = directory x.bodies := by rw [Column.front, hwidth]
    rw [hfront] at hsplit
    rw [hwidth] at hlen
    rw [Option.isSome_none, if_neg Bool.false_ne_true] at hlen
    have hflat : x.bodies.flatten.length < 2 ^ 32 := by
      have := congrArg List.length hsplit
      simp only [List.length_append] at this
      omega
    have hlies := lies_of_directory hsplit hflat
    have hends := hlies.readEnds "PAX leaf value directory not ascending"
    rw [List.length_map, h.bodies, List.length_append, List.length_singleton] at hends
    dsimp only
    rw [hends]
    show (if pre.length + 1 + 4 * n + (x.bodies.map List.length).sum ≠ _ then _ else _) = _
    rw [if_neg (by omega)]
    rfl

/-- The entries of a region, by the shape that was parsed of it. -/
structure FindsRegion (payload : Bytes) (r : RegionDir) (x : Column) : Prop where
  isNull : ∀ (dirs : PaxDirs) (c i : ℕ) (null : Bool), dirs.regions[c]? = some r →
    x.nulls[i]? = some null → dirs.isNull payload c i = .ok null
  value : ∀ (dirs : PaxDirs) (c i : ℕ) (b : Bytes), dirs.regions[c]? = some r →
    x.bodies[i]? = some b → dirs.valueLen payload c i = .ok b.length ∧
      ∃ off more, dirs.valueOff payload c i = .ok off ∧ payload.drop off = b ++ more

theorem nullBit_append {bitmap more : Bytes} {b : Bool} (h : nullBit bitmap i = .ok b) :
    nullBit (bitmap ++ more) i = .ok b := by
  unfold nullBit at h ⊢
  cases hbyte : bitmap[i / 8]? with
  | none =>
    rw [hbyte] at h
    cases h
  | some byte =>
    rw [hbyte] at h
    rw [List.getElem?_append_left (List.getElem?_eq_some_iff.mp hbyte).1, hbyte]
    exact h

theorem findsRegion_of (h : x.Ok n)
    (hp : payload = pre ++ (x.region ++ post)) (hsmall : payload.length < 2 ^ 32) :
    FindsRegion payload (regionDir n x.ct pre.length) x := by
  have hsplit := region_split hp
  have hpre : (pre ++ [0x00] : Bytes).length = pre.length + 1 := by
    rw [List.length_append, List.length_singleton]
  unfold regionDir
  cases hwidth : fixedValueWidth x.ct with
  | some width =>
    have hfront : x.front = nullBitmap x.nulls := by rw [Column.front, hwidth]
    rw [hfront] at hsplit
    dsimp only
    have hslots := h.sum_fixed hwidth
    constructor
    · intro dirs c i null hr hnull
      have hdrop : payload.drop (pre.length + 1) = nullBitmap x.nulls ++ (x.bodies.flatten ++ post) := by
        rw [hsplit, ← hpre, List.drop_left]
      simp only [PaxDirs.isNull, hr, hdrop]
      exact nullBit_append (nullBit_nullBitmap hnull)
    · intro dirs c i b hr hb
      have hi := (List.getElem?_eq_some_iff.mp hb).1
      rw [← List.append_assoc] at hsplit
      obtain ⟨more, hmore⟩ := drop_parts hsplit hb
      have hstart : ((x.bodies.map List.length).take i).sum = i * width := by
        rw [h.bodies] at hi
        rw [hslots, List.take_replicate, Nat.min_eq_left hi.le, List.sum_replicate, smul_eq_mul]
      rw [hstart, List.length_append, hpre, nullBitmap_length, h.nulls] at hmore
      refine ⟨?_, pre.length + 1 + (n + 7) / 8 + i * width, more, ?_, hmore⟩
      · simp only [PaxDirs.valueLen, hr]
        rw [h.slots width hwidth b (List.mem_of_getElem? hb)]
      · simp only [PaxDirs.valueOff, hr]
  | none =>
    have hfront : x.front = directory x.bodies := by rw [Column.front, hwidth]
    rw [hfront] at hsplit
    dsimp only
    have hflat : x.bodies.flatten.length < 2 ^ 32 := by
      have := congrArg List.length hsplit
      simp only [List.length_append] at this
      omega
    have hlies := lies_of_directory hsplit hflat
    rw [hpre] at hlies
    have hspan : ∀ {i : ℕ} {b : Bytes}, x.bodies[i]? = some b →
        ((x.bodies.map List.length).take (i + 1)).sum
          = ((x.bodies.map List.length).take i).sum + b.length := by
      intro i b hb
      rw [List.take_add_one, List.getElem?_map, hb, List.sum_append]
      simp
    constructor
    · intro dirs c i null hr hnull
      have hi : i < x.bodies.length := by
        rw [h.bodies, ← h.nulls]
        exact (List.getElem?_eq_some_iff.mp hnull).1
      have hb := List.getElem?_eq_getElem hi
      have hspans := h.spans hwidth i null _ hnull hb
      have hi' : i < (x.bodies.map List.length).length := by rwa [List.length_map]
      simp only [PaxDirs.isNull, hr, hlies.start hi', hlies.stop hi', hspan hb]
      show Except.ok _ = _
      congr 1
      cases null with
      | true =>
        rw [hspans.mp rfl]
        exact beq_self_eq_true _
      | false =>
        have hne : x.bodies[i] ≠ [] := fun hnil => Bool.false_ne_true (hspans.mpr hnil)
        have hpos := List.length_pos_iff.mpr hne
        rw [beq_eq_false_iff_ne]
        omega
    · intro dirs c i b hr hb
      have hi := (List.getElem?_eq_some_iff.mp hb).1
      have hi' : i < (x.bodies.map List.length).length := by rwa [List.length_map]
      rw [← List.append_assoc] at hsplit
      obtain ⟨more, hmore⟩ := drop_parts hsplit hb
      rw [List.length_append, hpre, directory_length, h.bodies] at hmore
      refine ⟨?_, _, more, ?_, hmore⟩
      · simp only [PaxDirs.valueLen, hr, hlies.start hi', hlies.stop hi', hspan hb]
        show (if _ < _ then _ else _) = _
        rw [if_neg (by omega), Nat.add_sub_cancel_left]
        rfl
      · simp only [PaxDirs.valueOff, hr, hlies.start hi']
        rfl

/-- The shapes of regions that lie one after another. -/
def regionDirs (n : ℕ) : ℕ → List Column → List RegionDir
  | _, [] => []
  | start, x :: xs => regionDir n x.ct start :: regionDirs n (start + x.region.length) xs

theorem parseRegions_of {xs : List Column} (hxs : ∀ x ∈ xs, x.Ok n) (hsmall : payload.length < 2 ^ 32) :
    ∀ {pre post : Bytes} {colPos : ℕ}, payload = pre ++ ((xs.map Column.region).flatten ++ post) →
      (∀ i < xs.length, readU32At payload (colPos + i * 4)
        = .ok (pre.length + (((xs.map Column.region).map List.length).take (i + 1)).sum)) →
      parseRegions payload n (xs.map Column.ct) colPos pre.length = .ok (regionDirs n pre.length xs) ∧
        ∀ (c : ℕ) (x : Column), xs[c]? = some x →
          ∃ r, (regionDirs n pre.length xs)[c]? = some r ∧ FindsRegion payload r x := by
  induction xs with
  | nil => exact fun _ _ => ⟨rfl, nofun⟩
  | cons x xs ih =>
    intro pre post colPos hp hends
    have hx := hxs x List.mem_cons_self
    have hsplit : payload = pre ++ (x.region ++ ((xs.map Column.region).flatten ++ post)) := by
      rw [hp, List.map_cons, List.flatten_cons, List.append_assoc]
    have hfirst := hends 0 (Nat.succ_pos _)
    rw [Nat.zero_mul, Nat.add_zero, List.map_cons, List.map_cons, List.take_succ_cons, List.take_zero,
      List.sum_singleton] at hfirst
    have hrest := @ih (fun y hy => hxs y (List.mem_cons_of_mem _ hy)) (pre ++ x.region) post
      (colPos + 4) (by rw [hsplit, List.append_assoc]) fun i hi => by
        have := hends (i + 1) (Nat.succ_lt_succ hi)
        rw [List.map_cons, List.map_cons, List.take_succ_cons, List.sum_cons] at this
        rw [show colPos + 4 + i * 4 = colPos + (i + 1) * 4 by omega, this, List.length_append, Nat.add_assoc]
    rw [List.length_append] at hrest
    constructor
    · rw [List.map_cons, parseRegions, hfirst]
      show (parseRegion payload n x.ct pre.length (pre.length + x.region.length) >>= fun region =>
        parseRegions payload n (xs.map Column.ct) (colPos + 4) (pre.length + x.region.length) >>= fun rest =>
          Except.ok (region :: rest)) = _
      rw [parseRegion_of hx hsplit hsmall, hrest.1]
      rfl
    · intro c y hy
      cases c with
      | zero =>
        cases hy
        exact ⟨_, rfl, findsRegion_of hx hsplit hsmall⟩
      | succ c => exact hrest.2 c y hy

theorem columnOf_getElem? {cells : List (List Bytes)} {c : ℕ} {cs : List Bytes} {b : Bytes}
    (h : ∀ cs ∈ cells, c < cs.length) (hi : cells[i]? = some cs) (hb : cs[c]? = some b) :
    (columnOf cells c)[i]? = some b := by
  induction cells generalizing i with
  | nil => cases hi
  | cons cs' cells ih =>
    have hc := h cs' List.mem_cons_self
    rw [columnOf_cons hc]
    cases i with
    | zero =>
      cases hi
      rw [List.getElem?_eq_getElem hc] at hb
      exact hb
    | succ i => exact ih (fun cs hcs => h cs (List.mem_cons_of_mem _ hcs)) hi

/-- The cells of records: one for each column, a slot of the column's width, or nothing of a NULL. -/
structure CellsOf (colTypes : List ColType) (records : List (Bytes × List Stored))
    (cells : List (List Bytes)) : Prop where
  length : cells.length = records.length
  rows : ∀ r ∈ records, r.2.length = colTypes.length
  cols : ∀ cs ∈ cells, cs.length = colTypes.length
  cell : ∀ (i c : ℕ) (ct : ColType) (r : Bytes × List Stored) (s : Stored) (cs : List Bytes) (b : Bytes),
    colTypes[c]? = some ct → records[i]? = some r → r.2[c]? = some s → cells[i]? = some cs →
    cs[c]? = some b → (∀ width, fixedValueWidth ct = some width → b.length = width) ∧
      (fixedValueWidth ct = none → (s.isNull = true ↔ b = []))

/-- The columns of a leaf. -/
def columnsOf (colTypes : List ColType) (records : List (Bytes × List Stored))
    (cells : List (List Bytes)) : List Column :=
  colTypes.zipIdx.map fun c => ⟨c.1, nullsOf records c.2, columnOf cells c.2⟩

section Layout

variable {colTypes : List ColType} {records : List (Bytes × List Stored)} {cells : List (List Bytes)}

variable (records cells) in
theorem columnsOf_getElem? {c : ℕ} {ct : ColType} (hc : colTypes[c]? = some ct) :
    (columnsOf colTypes records cells)[c]? = some ⟨ct, nullsOf records c, columnOf cells c⟩ := by
  rw [columnsOf, List.getElem?_map, List.getElem?_zipIdx, hc]
  simp

theorem columnsOf_ok (h : CellsOf colTypes records cells) :
    ∀ x ∈ columnsOf colTypes records cells, x.Ok records.length := by
  intro x hx
  obtain ⟨⟨ct, c⟩, hc, rfl⟩ := List.mem_map.mp hx
  have hct : colTypes[c]? = some ct := List.mem_zipIdx_iff_getElem?.mp hc
  have hlt := (List.getElem?_eq_some_iff.mp hct).1
  have hcols : ∀ cs ∈ cells, c < cs.length := fun cs hcs => (h.cols cs hcs).symm ▸ hlt
  have hlen : (columnOf cells c).length = records.length := (columnOf_length hcols).trans h.length
  have hcell : ∀ (i : ℕ) (b : Bytes), (columnOf cells c)[i]? = some b →
      ∃ (r : Bytes × List Stored) (s : Stored) (cs : List Bytes), records[i]? = some r ∧
      r.2[c]? = some s ∧ cells[i]? = some cs ∧ cs[c]? = some b := by
    intro i b hb
    have hi : i < records.length := hlen ▸ (List.getElem?_eq_some_iff.mp hb).1
    have hi' : i < cells.length := h.length ▸ hi
    have hrow : c < (records[i]).2.length := (h.rows _ (List.getElem_mem hi)).symm ▸ hlt
    have hcs : c < (cells[i]).length := hcols _ (List.getElem_mem hi')
    have hbody := columnOf_getElem? hcols (List.getElem?_eq_getElem hi') (List.getElem?_eq_getElem hcs)
    refine ⟨_, _, _, List.getElem?_eq_getElem hi, List.getElem?_eq_getElem hrow,
      List.getElem?_eq_getElem hi', ?_⟩
    rw [← hb, hbody, List.getElem?_eq_getElem hcs]
  refine ⟨List.length_map _, hlen, fun width hwidth b hb => ?_, fun hwidth i null b hnull hb => ?_⟩
  · obtain ⟨i, hi⟩ := List.mem_iff_getElem?.mp hb
    obtain ⟨r, s, cs, hr, hs, hcs, hb⟩ := hcell i b hi
    exact (h.cell i c ct r s cs b hct hr hs hcs hb).1 width hwidth
  · obtain ⟨r, s, cs, hr, hs, hcs, hb⟩ := hcell i b hb
    have hsame : null = s.isNull := by
      change (nullsOf records c)[i]? = some null at hnull
      rw [nullsOf, List.getElem?_map, hr] at hnull
      have hany : (r.2[c]?).any Stored.isNull = null := Option.some.inj hnull
      rw [hs] at hany
      exact hany.symm
    rw [hsame]
    exact (h.cell i c ct r s cs b hct hr hs hcs hb).2 hwidth

theorem columnsOf_ct : (columnsOf colTypes records cells).map Column.ct = colTypes := by
  rw [columnsOf, List.map_map]
  exact List.zipIdx_map_fst 0 colTypes

/-- The lengths that the column directory is made of. -/
theorem regionLens_columnsOf (h : CellsOf colTypes records cells) :
    (colTypes.zipIdx.map fun c => regionLen records.length c.1 (columnOf cells c.2))
      = ((columnsOf colTypes records cells).map Column.region).map List.length := by
  rw [columnsOf, List.map_map, List.map_map]
  refine List.map_congr_left fun c hc => ?_
  have hok := columnsOf_ok h _ (List.mem_map_of_mem hc)
  have hlen := region_length c.1 hok.nulls hok.bodies
  show regionLen records.length c.1 (columnOf cells c.2)
    = (region c.1 (nullsOf records c.2) (columnOf cells c.2)).length
  rw [hlen, regionLen, regionOverhead]
  cases fixedValueWidth c.1 with
  | some width => simp only [Option.isSome_some, if_true, Nat.add_assoc]
  | none => simp only [Option.isSome_none, Bool.false_eq_true, if_false, Nat.add_assoc]

/-- The payload of a leaf: its key directory and keys, its column directory and regions. -/
theorem layLeaf_eq (h : CellsOf colTypes records cells) (base : ℕ)
    (hbase : base = 4 * records.length + (records.map Prod.fst).flatten.length + 4 * (colTypes.length + 1)) :
    layLeaf colTypes records cells = directory (records.map Prod.fst) ++
      ((records.map Prod.fst).flatten ++ ((base :: endOffsets base
        (((columnsOf colTypes records cells).map Column.region).map List.length)).flatMap (beBytes 4) ++
          ((columnsOf colTypes records cells).map Column.region).flatten)) := by
  rw [← regionLens_columnsOf h, hbase]
  unfold layLeaf
  simp only [List.length_map, List.flatMap_def, columnsOf, List.map_map]
  rfl

/-- What the directories of a payload find of the records it was laid out of. -/
structure Finds (payload : Bytes) (dirs : PaxDirs) (colTypes : List ColType)
    (records : List (Bytes × List Stored)) (cells : List (List Bytes)) : Prop where
  key : ∀ (i : ℕ) (r : Bytes × List Stored), records[i]? = some r → dirs.key payload i = .ok r.1
  isNull : ∀ (i c : ℕ) (r : Bytes × List Stored) (s : Stored), records[i]? = some r →
    r.2[c]? = some s → dirs.isNull payload c i = .ok s.isNull
  value : ∀ (i c : ℕ) (cs : List Bytes) (b : Bytes), cells[i]? = some cs → cs[c]? = some b →
    dirs.valueLen payload c i = .ok b.length ∧
      ∃ off more, dirs.valueOff payload c i = .ok off ∧ payload.drop off = b ++ more

/-- A leaf's payload parses, whatever follows it. -/
theorem parsePaxLeaf_layLeaf (h : CellsOf colTypes records cells) {rest payload : Bytes}
    (hp : payload = layLeaf colTypes records cells ++ rest) (hsmall : payload.length < 2 ^ 32) :
    ∃ dirs, parsePaxLeaf payload records.length colTypes = .ok dirs ∧
      Finds payload dirs colTypes records cells := by
  have hxs := columnsOf_ok h
  have hcts : (columnsOf colTypes records cells).map Column.ct = colTypes := columnsOf_ct
  have hlay := layLeaf_eq h _ rfl
  revert hlay
  generalize hkeys : records.map Prod.fst = keys
  generalize hcolumns : columnsOf colTypes records cells = xs at hxs hcts
  generalize hbase : 4 * records.length + keys.flatten.length + 4 * (colTypes.length + 1) = base
  intro hlay
  have hn : keys.length = records.length := by rw [← hkeys, List.length_map]
  have hk : xs.length = colTypes.length := by rw [← hcts, List.length_map]
  -- the payload, cut before each of its parts
  have hdir : payload = [] ++ (directory keys ++ (keys.flatten ++ ((base :: endOffsets base
      ((xs.map Column.region).map List.length)).flatMap (beBytes 4) ++
        ((xs.map Column.region).flatten ++ rest)))) := by
    rw [hp, hlay]
    simp only [List.append_assoc, List.nil_append]
  have hblob := hdir
  rw [List.nil_append] at hblob
  have hcol := hblob
  rw [← List.append_assoc] at hcol
  have hreg := hcol
  rw [← List.append_assoc] at hreg
  have hprecol : (directory keys ++ keys.flatten).length = 4 * records.length + keys.flatten.length := by
    rw [List.length_append, directory_length, hn]
  have hprereg : (directory keys ++ keys.flatten ++ (base :: endOffsets base
      ((xs.map Column.region).map List.length)).flatMap (beBytes 4)).length = base := by
    rw [List.length_append, hprecol, length_flatMap_beBytes, List.length_cons, endOffsets_length,
      List.length_map, List.length_map, hk, ← hbase]
  have htotal : payload.length = base + ((xs.map Column.region).flatten.length + rest.length) := by
    rw [hreg, List.length_append, hprereg, List.length_append]
  -- the key directory
  have hkeylies := lies_of_directory hdir (by omega)
  rw [List.length_nil] at hkeylies
  have hkeyends := hkeylies.readEnds "PAX leaf key directory not ascending"
  rw [List.length_map, hn, Nat.zero_add, ← List.length_flatten] at hkeyends
  -- the column directory
  have hstart := readU32At_flatMap (i := 0) hcol (Nat.add_zero _).symm rfl (by omega)
  rw [hprecol] at hstart
  have hentries : ∀ i < xs.length, readU32At payload (4 * records.length + keys.flatten.length + 4 + i * 4)
      = .ok (base + (((xs.map Column.region).map List.length).take (i + 1)).sum) := by
    intro i hi
    have hi' : i < ((xs.map Column.region).map List.length).length := by
      rwa [List.length_map, List.length_map]
    refine readU32At_flatMap (i := i + 1) hcol ?_ (endOffsets_getElem? base hi') ?_
    · rw [hprecol]
      omega
    · have := (List.take_sublist (i + 1) ((xs.map Column.region).map List.length)).sum_le_sum
        fun _ _ => Nat.zero_le _
      rw [← List.length_flatten] at this
      omega
  have hparsed := parseRegions_of hxs hsmall hreg (by rw [hprereg]; exact hentries)
  rw [hprereg, hcts] at hparsed
  obtain ⟨hregions, hfinds⟩ := hparsed
  refine ⟨⟨0, 4 * records.length, regionDirs records.length base xs⟩, ?_, ?_, ?_, ?_⟩
  · unfold parsePaxLeaf
    rw [hkeyends]
    show (if payload.length < 4 * records.length + keys.flatten.length then _ else _) = _
    rw [if_neg (by omega)]
    unfold parseColumns
    dsimp only
    rw [if_neg (by omega), hstart]
    show ((if base ≠ 4 * records.length + keys.flatten.length + (colTypes.length + 1) * 4 then _
      else parseRegions payload records.length colTypes _ base) >>= _) = _
    rw [if_neg (by omega), hregions]
    rfl
  · intro i r hr
    have hkey : keys[i]? = some r.1 := by rw [← hkeys, List.getElem?_map, hr]; rfl
    have hi := (List.getElem?_eq_some_iff.mp hkey).1
    have hi' : i < (keys.map List.length).length := by rwa [List.length_map]
    obtain ⟨more, hmore⟩ := drop_parts hblob hkey
    rw [directory_length, hn] at hmore
    have hstop : ((keys.map List.length).take (i + 1)).sum
        = ((keys.map List.length).take i).sum + r.1.length := by
      rw [List.take_add_one, List.getElem?_map, hkey, List.sum_append]
      simp
    have hin : ((keys.map List.length).take (i + 1)).sum ≤ keys.flatten.length := by
      rw [List.length_flatten]
      exact (List.take_sublist _ _).sum_le_sum fun _ _ => Nat.zero_le _
    unfold PaxDirs.key
    dsimp only
    rw [hkeylies.start hi', hkeylies.stop hi', hstop]
    show (if _ ∨ payload.length < 4 * records.length + _ then _ else _) = _
    rw [if_neg (by omega), hmore, Nat.add_sub_cancel_left, List.take_left]
    rfl
  · intro i c r s hr hs
    have hrow := h.rows r (List.mem_of_getElem? hr)
    have hc : c < colTypes.length := hrow ▸ (List.getElem?_eq_some_iff.mp hs).1
    have hx := columnsOf_getElem? records cells (List.getElem?_eq_getElem hc)
    rw [hcolumns] at hx
    obtain ⟨region, hregion, hfound⟩ := hfinds c _ hx
    refine hfound.isNull _ c i _ hregion ?_
    show (nullsOf records c)[i]? = _
    rw [nullsOf, List.getElem?_map, hr]
    show some ((r.2[c]?).any Stored.isNull) = _
    rw [hs]
    rfl
  · intro i c cs b hcs hb
    have hcols : ∀ cs ∈ cells, c < cs.length := fun cs' hcs' => by
      rw [h.cols cs' hcs', ← h.cols cs (List.mem_of_getElem? hcs)]
      exact (List.getElem?_eq_some_iff.mp hb).1
    have hc : c < colTypes.length := h.cols cs (List.mem_of_getElem? hcs) ▸ (List.getElem?_eq_some_iff.mp hb).1
    have hx := columnsOf_getElem? records cells (List.getElem?_eq_getElem hc)
    rw [hcolumns] at hx
    obtain ⟨region, hregion, hfound⟩ := hfinds c _ hx
    exact hfound.value _ c i b hregion (columnOf_getElem? hcols hcs hb)

end Layout

end Jed.Codec
