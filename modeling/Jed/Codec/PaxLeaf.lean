import Jed.Codec.LeafPage
import Jed.Lib.Results

/-!
# Leaves as they are read

The directories of a leaf's payload (`format.rs:5735-6047`), which are checked once when the leaf is
loaded, and its keys and values, which are found by their offsets from then on. A read past the payload
would be a panic.
-/

namespace Jed.Codec

open Readers Key PMap Results

/-- `RegionDir` (`format.rs:5737-5753`): a bitmap and slots of one width, or end offsets and tagged
    bytes. -/
inductive RegionDir where
  | fixed (width bitmap body : Nat)
  | var (ends body : Nat)
  deriving DecidableEq, Repr

/-- `PaxDirs`. -/
structure PaxDirs where
  keyDir : Nat
  keyBlob : Nat
  regions : List RegionDir
  deriving DecidableEq, Repr

/-- `end_offset`, which looks where it is told. -/
def endOffset (payload : Bytes) (directory i : Nat) : Except Failure Nat :=
  if payload.length < directory + i * 4 + 4 then .error .panic
  else .ok (beNat ((payload.drop (directory + i * 4)).take 4))

/-- Where a part starts: at the end of the one before it. -/
def startOffset (payload : Bytes) (directory : Nat) : Nat → Except Failure Nat
  | 0 => .ok 0
  | i + 1 => endOffset payload directory i

/-- `key`. -/
def PaxDirs.key (dirs : PaxDirs) (payload : Bytes) (i : Nat) : Except Failure Bytes := do
  let lo ← startOffset payload dirs.keyDir i
  let hi ← endOffset payload dirs.keyDir i
  if hi < lo ∨ payload.length < dirs.keyBlob + hi then
    throw (dataCorrupted "PAX leaf key directory out of range")
  else return (payload.drop (dirs.keyBlob + lo)).take (hi - lo)

/-- `is_null`. -/
def PaxDirs.isNull (dirs : PaxDirs) (payload : Bytes) (c i : Nat) : Except Failure Bool :=
  match dirs.regions[c]? with
  | none => .error .panic
  | some (.fixed _ bitmap _) => nullBit (payload.drop bitmap) i
  | some (.var ends _) => do
    let start ← startOffset payload ends i
    let stop ← endOffset payload ends i
    return stop == start

/-- `value_off`. -/
def PaxDirs.valueOff (dirs : PaxDirs) (payload : Bytes) (c i : Nat) : Except Failure Nat :=
  match dirs.regions[c]? with
  | none => .error .panic
  | some (.fixed width _ body) => .ok (body + i * width)
  | some (.var ends body) => (startOffset payload ends i).map (body + ·)

/-- `value_len`, a difference of unsigned numbers. -/
def PaxDirs.valueLen (dirs : PaxDirs) (payload : Bytes) (c i : Nat) : Except Failure Nat :=
  match dirs.regions[c]? with
  | none => .error .panic
  | some (.fixed width _ _) => .ok width
  | some (.var ends _) => do
    let lo ← startOffset payload ends i
    let hi ← endOffset payload ends i
    if hi < lo then throw .panic else return hi - lo

/-- `read_u32` and `read_u8` at an offset. -/
def readU32At (payload : Bytes) (pos : Nat) : Except Failure Nat := (readU32 (payload.drop pos)).map (·.1)
def readU8At (payload : Bytes) (pos : Nat) : Except Failure UInt8 := (readU8 (payload.drop pos)).map (·.1)

/-- A directory of `n` ascending end offsets: where it ends, and the last of them. -/
def readEnds (payload : Bytes) (message : String) : Nat → Nat → Nat → Except Failure (Nat × Nat)
  | 0, pos, prev => .ok (pos, prev)
  | n + 1, pos, prev => do
    let e ← readU32At payload pos
    if e < prev then throw (dataCorrupted message)
    else readEnds payload message n (pos + 4) e

attribute [grind =] readEnds

/-- The shape of a column's region, behind its flags. -/
def regionShape (payload : Bytes) (n : Nat) (ct : ColType) (start stop : Nat) :
    Except Failure RegionDir :=
  match fixedValueWidth ct with
  | some width =>
    let bitmap := start + 1
    let body := bitmap + (n + 7) / 8
    if body + n * width ≠ stop then .error (dataCorrupted "PAX leaf fixed region extent mismatch")
    else .ok (.fixed width bitmap body)
  | none => do
    let ends := start + 1
    let (p, last) ← readEnds payload "PAX leaf value directory not ascending" n ends 0
    if p + last ≠ stop then throw (dataCorrupted "PAX leaf variable region extent mismatch")
    else return .var ends p

/-- The region of a column, of the given extent. -/
def parseRegion (payload : Bytes) (n : Nat) (ct : ColType) (start stop : Nat) :
    Except Failure RegionDir :=
  if stop < start ∨ payload.length < stop then
    .error (dataCorrupted "PAX leaf column region out of range")
  else do
    let flags ← readU8At payload start
    if flags ≠ 0 then throw (dataCorrupted "PAX leaf region flags has a reserved bit set")
    else regionShape payload n ct start stop

/-- The regions, each from the end of the one before it. -/
def parseRegions (payload : Bytes) (n : Nat) : List ColType → Nat → Nat → Except Failure (List RegionDir)
  | [], _, _ => .ok []
  | ct :: colTypes, colPos, start => do
    let stop ← readU32At payload colPos
    let region ← parseRegion payload n ct start stop
    let rest ← parseRegions payload n colTypes (colPos + 4) stop
    return region :: rest

attribute [grind =] parseRegions

/-- The column directory, and the regions it names. -/
def parseColumns (payload : Bytes) (n : Nat) (colTypes : List ColType) (colDir : Nat) :
    Except Failure (List RegionDir) :=
  let colDirLen := (colTypes.length + 1) * 4
  if 2 ^ 64 ≤ colDirLen ∨ 2 ^ 64 ≤ colDir + colDirLen then
    .error (dataCorrupted "PAX leaf column directory out of range")
  else do
    let start ← readU32At payload colDir
    if start ≠ colDir + colDirLen then
      throw (dataCorrupted "PAX leaf column directory start mismatch")
    else parseRegions payload n colTypes (colDir + 4) start

/-- `parse_pax_leaf` (`format.rs:5972-6047`). -/
def parsePaxLeaf (payload : Bytes) (n : Nat) (colTypes : List ColType) : Except Failure PaxDirs := do
  let (keyBlob, last) ← readEnds payload "PAX leaf key directory not ascending" n 0 0
  if payload.length < keyBlob + last then throw (dataCorrupted "PAX leaf key blob overruns page")
  else do
    let regions ← parseColumns payload n colTypes (keyBlob + last)
    return ⟨0, keyBlob, regions⟩

/-- `PackedLeaf` (`format.rs:5844-5863`): the payload of its page, not decoded. -/
structure PackedLeaf where
  payload : Bytes
  dirs : PaxDirs
  colTypes : List ColType
  cap : Cap
  n : Nat

/-- `key`, of directories that were checked. -/
def PackedLeaf.key (leaf : PackedLeaf) (i : Nat) : Except Failure Bytes :=
  match leaf.dirs.key leaf.payload i with
  | .ok key => .ok key
  | .error _ => .error .panic

/-- `record_weight`. -/
def PackedLeaf.recordWeight (leaf : PackedLeaf) (i : Nat) : Except Failure Nat := do
  let key ← leaf.key i
  let lens ← (List.range leaf.colTypes.length).mapM fun c => leaf.dirs.valueLen leaf.payload c i
  return (key.length + lens.sum) % 2 ^ 32

/-- `is_null`. -/
def PackedLeaf.isNull (leaf : PackedLeaf) (c i : Nat) : Except Failure Bool :=
  leaf.dirs.isNull leaf.payload c i

/-- `value`: a slot is decoded, and what is behind a tag is deferred. -/
def PackedLeaf.value (leaf : PackedLeaf) (c i : Nat) : Except Failure Stored := do
  if ← leaf.isNull c i then return .value .null
  else
    match leaf.colTypes[c]? with
    | none => throw .panic
    | some ct => do
      let pos ← leaf.dirs.valueOff leaf.payload c i
      match fixedValueWidth ct with
      | some _ => (readInlineBody .construct ct (leaf.payload.drop pos)).map fun p => .value p.1
      | none => (readValueLazy ct leaf.cap (leaf.payload.drop pos)).map (·.1)

/-- `row`. -/
def PackedLeaf.row (leaf : PackedLeaf) (i : Nat) : Except Failure (List Stored) :=
  (List.range leaf.colTypes.length).mapM fun c => leaf.value c i

variable {payload : Bytes} {pos e : ℕ}

theorem readU32At_ok (h : readU32At payload pos = .ok e) :
    pos + 4 ≤ payload.length ∧ e = beNat ((payload.drop pos).take 4) := by
  unfold readU32At readU32 readBe at h
  obtain ⟨p, hp, rfl⟩ := map_eq_ok.mp h
  obtain ⟨q, hq, hp⟩ := bind_eq_ok.mp hp
  unfold take at hq
  by_cases hshort : (payload.drop pos).length < 4
  · rw [if_pos hshort] at hq
    cases hq
  · rw [if_neg hshort] at hq
    cases hq
    cases hp
    rw [List.length_drop] at hshort
    exact ⟨by omega, rfl⟩

theorem endOffset_of_read {i : ℕ} (h : readU32At payload (pos + i * 4) = .ok e) :
    endOffset payload pos i = .ok e := by
  obtain ⟨hroom, rfl⟩ := readU32At_ok h
  rw [endOffset, if_neg (by omega)]

theorem readU8At_ok {b : UInt8} (h : readU8At payload pos = .ok b) :
    pos < payload.length := by
  unfold readU8At readU8 at h
  obtain ⟨p, hp, -⟩ := map_eq_ok.mp h
  obtain ⟨q, hq, -⟩ := bind_eq_ok.mp hp
  unfold take at hq
  by_cases hshort : (payload.drop pos).length < 1
  · rw [if_pos hshort] at hq
    cases hq
  · rw [List.length_drop] at hshort
    omega

/-- A directory of ascending end offsets in a payload. -/
structure Directory (payload : Bytes) (pos n last : ℕ) : Prop where
  room : pos + 4 * n ≤ payload.length
  ends : ∀ i < n, ∃ lo hi, startOffset payload pos i = .ok lo ∧ endOffset payload pos i = .ok hi ∧
    lo ≤ hi ∧ hi ≤ last

variable {n p last : ℕ} {message : String}

theorem readEnds_ok {prev : ℕ} (h : readEnds payload message n pos prev = .ok (p, last)) :
    p = pos + 4 * n ∧ prev ≤ last ∧ (pos ≤ payload.length → p ≤ payload.length) ∧
      ∀ i < n, ∃ lo hi, (match i with | 0 => lo = prev | i + 1 => endOffset payload pos i = .ok lo) ∧
        endOffset payload pos i = .ok hi ∧ lo ≤ hi ∧ hi ≤ last := by
  induction n generalizing pos prev with
  | zero =>
    cases h
    exact ⟨rfl, le_rfl, id, fun i hi => absurd hi (Nat.not_lt_zero i)⟩
  | succ n ih =>
    obtain ⟨e, he, h⟩ := bind_eq_ok.mp h
    have hroom := (readU32At_ok he).1
    by_cases hdesc : e < prev
    · rw [if_pos hdesc] at h
      cases h
    · rw [if_neg hdesc] at h
      obtain ⟨rfl, hlast, hin, hends⟩ := ih h
      refine ⟨by omega, by omega, fun _ => hin hroom, fun i hi => ?_⟩
      have hshift : ∀ j, endOffset payload pos (j + 1) = endOffset payload (pos + 4) j := by
        intro j
        unfold endOffset
        rw [show pos + (j + 1) * 4 = pos + 4 + j * 4 by omega]
      cases i with
      | zero => exact ⟨prev, e, rfl, endOffset_of_read (i := 0) (by simpa using he), by omega, hlast⟩
      | succ i =>
        obtain ⟨lo, hi', hlo, hhi, hle, hle'⟩ := hends i (by omega)
        refine ⟨lo, hi', ?_, (hshift i).trans hhi, hle, hle'⟩
        cases i with
        | zero =>
          subst hlo
          exact endOffset_of_read (i := 0) (by simpa using he)
        | succ i => exact (hshift i).trans hlo

theorem directory_of_readEnds
    (hat : pos ≤ payload.length) (h : readEnds payload message n pos 0 = .ok (p, last)) :
    p = pos + 4 * n ∧ Directory payload pos n last := by
  obtain ⟨rfl, -, hin, hends⟩ := readEnds_ok h
  refine ⟨rfl, hin hat, fun i hi => ?_⟩
  obtain ⟨lo, hi', hlo, hhi, hle, hle'⟩ := hends i hi
  refine ⟨lo, hi', ?_, hhi, hle, hle'⟩
  cases i with
  | zero =>
    subst hlo
    rfl
  | succ i => exact hlo

/-- A region whose parts are all within the payload. -/
def RegionDir.InRange (payload : Bytes) (n : ℕ) : RegionDir → Prop
  | .fixed width bitmap body => bitmap + (n + 7) / 8 ≤ payload.length ∧ body + n * width ≤ payload.length
  | .var ends body => ∃ last, Directory payload ends n last ∧ body + last ≤ payload.length

theorem parseRegion_inRange {ct : ColType} {start stop : ℕ} {r : RegionDir}
    (h : parseRegion payload n ct start stop = .ok r) : r.InRange payload n := by
  unfold parseRegion at h
  by_cases hout : stop < start ∨ payload.length < stop
  · rw [if_pos hout] at h
    cases h
  · rw [if_neg hout] at h
    obtain ⟨flags, hflags, h⟩ := bind_eq_ok.mp h
    have hstart := readU8At_ok hflags
    by_cases hset : flags ≠ 0
    · rw [if_pos hset] at h
      cases h
    · rw [if_neg hset] at h
      unfold regionShape at h
      cases hwidth : fixedValueWidth ct with
      | some width =>
        rw [hwidth] at h
        dsimp only at h
        by_cases hextent : start + 1 + (n + 7) / 8 + n * width = stop
        · rw [if_neg (not_not.mpr hextent)] at h
          cases h
          constructor <;> omega
        · rw [if_pos hextent] at h
          cases h
      | none =>
        rw [hwidth] at h
        obtain ⟨⟨p, last⟩, hends, h⟩ := bind_eq_ok.mp h
        dsimp only at h
        by_cases hextent : p + last = stop
        · rw [if_neg (not_not.mpr hextent)] at h
          cases h
          have hdir := (directory_of_readEnds (by omega) hends).2
          exact ⟨last, hdir, by omega⟩
        · rw [if_pos hextent] at h
          cases h

theorem parseRegions_inRange {colTypes : List ColType} :
    ∀ {colPos start : ℕ} {rs : List RegionDir}, parseRegions payload n colTypes colPos start = .ok rs →
      rs.length = colTypes.length ∧ ∀ r ∈ rs, r.InRange payload n := by
  induction colTypes with
  | nil =>
    intro colPos start rs h
    cases h
    exact ⟨rfl, nofun⟩
  | cons ct colTypes ih =>
    intro colPos start rs h
    obtain ⟨stop, -, h⟩ := bind_eq_ok.mp h
    obtain ⟨region, hregion, h⟩ := bind_eq_ok.mp h
    obtain ⟨rest, hrest, h⟩ := bind_eq_ok.mp h
    cases h
    obtain ⟨hlen, hin⟩ := ih hrest
    refine ⟨congrArg (· + 1) hlen, fun r hr => ?_⟩
    cases List.mem_cons.mp hr with
    | inl heq => exact heq ▸ parseRegion_inRange hregion
    | inr hr => exact hin r hr

/-- Directories whose every part is within the payload. -/
structure PaxDirs.InRange (dirs : PaxDirs) (payload : Bytes) (n k : ℕ) : Prop where
  key : ∀ i < n, ∃ key, dirs.key payload i = .ok key
  isNull : ∀ i < n, ∀ c < k, ∃ b, dirs.isNull payload c i = .ok b
  value : ∀ i < n, ∀ c < k, ∃ off len, dirs.valueOff payload c i = .ok off ∧
    dirs.valueLen payload c i = .ok len ∧ off + len ≤ payload.length

theorem nullBit_inRange {bitmap : Bytes} {i : ℕ} (hi : i < n) (h : (n + 7) / 8 ≤ bitmap.length) :
    ∃ b, nullBit bitmap i = .ok b := by
  have hbyte : i / 8 < bitmap.length := by omega
  unfold nullBit
  rw [List.getElem?_eq_getElem hbyte]
  exact ⟨_, rfl⟩

/-- The directories of a payload that parses are within it. -/
theorem parsePaxLeaf_inRange {colTypes : List ColType} {dirs : PaxDirs}
    (h : parsePaxLeaf payload n colTypes = .ok dirs) : dirs.InRange payload n colTypes.length := by
  obtain ⟨⟨keyBlob, last⟩, hkeys, h⟩ := bind_eq_ok.mp h
  dsimp only at h
  by_cases hover : payload.length < keyBlob + last
  · rw [if_pos hover] at h
    cases h
  · rw [if_neg hover] at h
    obtain ⟨regions, hregions, h⟩ := bind_eq_ok.mp h
    cases h
    have hkeydir := (directory_of_readEnds (Nat.zero_le _) hkeys).2
    have hcolumns : regions.length = colTypes.length ∧ ∀ r ∈ regions, r.InRange payload n := by
      unfold parseColumns at hregions
      dsimp only at hregions
      split at hregions
      · cases hregions
      · obtain ⟨start, -, hregions⟩ := bind_eq_ok.mp hregions
        split at hregions
        · cases hregions
        · exact parseRegions_inRange hregions
    obtain ⟨hlen, hin⟩ := hcolumns
    have hregion : ∀ c < colTypes.length, ∃ r, regions[c]? = some r ∧ r.InRange payload n := by
      intro c hc
      have hc' : c < regions.length := hlen.symm ▸ hc
      exact ⟨regions[c], List.getElem?_eq_getElem hc', hin _ (List.getElem_mem hc')⟩
    constructor
    · intro i hi
      obtain ⟨lo, hi', hlo, hhi, hle, hle'⟩ := hkeydir.ends i hi
      have hok : ¬(hi' < lo ∨ payload.length < keyBlob + hi') := by omega
      refine ⟨(payload.drop (keyBlob + lo)).take (hi' - lo), ?_⟩
      simp only [PaxDirs.key, hlo, hhi]
      exact if_neg hok
    · intro i hi c hc
      obtain ⟨r, hr, hrange⟩ := hregion c hc
      unfold PaxDirs.isNull
      rw [hr]
      cases r with
      | fixed width bitmap body =>
        refine nullBit_inRange hi ?_
        have := hrange.1
        rw [List.length_drop]
        omega
      | var ends body =>
        obtain ⟨last, hdir, -⟩ := hrange
        obtain ⟨lo, hi', hlo, hhi, -⟩ := hdir.ends i hi
        dsimp only
        rw [hlo, hhi]
        exact ⟨_, rfl⟩
    · intro i hi c hc
      obtain ⟨r, hr, hrange⟩ := hregion c hc
      unfold PaxDirs.valueOff PaxDirs.valueLen
      rw [hr]
      cases r with
      | fixed width bitmap body =>
        refine ⟨_, _, rfl, rfl, ?_⟩
        have hslot : (i + 1) * width ≤ n * width := Nat.mul_le_mul_right width hi
        have := hrange.2
        rw [Nat.succ_mul] at hslot
        omega
      | var ends body =>
        obtain ⟨last, hdir, hbody⟩ := hrange
        obtain ⟨lo, hi', hlo, hhi, hle, hle'⟩ := hdir.ends i hi
        have hasc : ¬hi' < lo := not_lt.mpr hle
        refine ⟨body + lo, hi' - lo, ?_, ?_, by omega⟩
        · dsimp only
          rw [hlo]
          rfl
        · dsimp only
          rw [hlo, hhi]
          exact if_neg hasc

end Jed.Codec
