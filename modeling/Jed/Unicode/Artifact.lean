import Jed.Unicode.Table
import Jed.Codec.Lz4

/-!
# Collation artifacts

The `.coll` artifact of one collation (`collation.rs:615-668`): what is written is read back exactly where
every count fits its field.
-/

namespace Jed.Unicode

open Codec Key Readers Results

/-- A `String`. -/
abbrev Str := { s : Bytes // ByteArray.validateUTF8 ⟨s.toArray⟩ = true }

/-- `Collation` (`collation.rs:50-63`). -/
structure Collation where
  name : Str
  unicodeVersion : Str
  cldrVersion : Str
  description : Str
  singles : List Single
  contractions : List Contraction

/-- `crc32_ieee`. -/
def crc32Ieee (bytes : Bytes) : U32 := asU32 (crc32Extend 0 bytes).toNat

/-- `push_str`. -/
def pushStr (s : Str) : Bytes := beBytes 2 s.val.length ++ s.val

/-- `Reader::str`. -/
def readStr : Cursor Str := do
  let n ← readU16
  let s ← take n
  if h : ByteArray.validateUTF8 ⟨s.toArray⟩ = true then pure ⟨s, h⟩
  else throw (dataCorrupted "collation: artifact string not UTF-8")

/-- `serialize_table`. -/
def serializeTable (coll : Collation) : Bytes := serializeEntries (coll.singles, coll.contractions)

/-- `b"JCOLL\0"`. -/
def ARTIFACT_MAGIC : Bytes := [0x4a, 0x43, 0x4f, 0x4c, 0x4c, 0]

/-- What an artifact is read into before its table is. -/
structure Artifact where
  name : Str
  unicodeVersion : Str
  cldrVersion : Str
  description : Str
  hash : U32
  rawLen : U32
  comp : Bytes

/-- The fields of an artifact in turn. -/
def pushArtifact (a : Artifact) : Bytes :=
  ARTIFACT_MAGIC ++ (beBytes 2 1 ++ (pushStr a.name ++ (pushStr a.unicodeVersion ++
    (pushStr a.cldrVersion ++ (pushStr a.description ++ (pushU32 a.hash ++ (pushU32 a.rawLen ++
      (beBytes 4 a.comp.length ++ a.comp))))))))

/-- `save_collation`. -/
def saveCollation (coll : Collation) : Bytes :=
  let table := serializeTable coll
  pushArtifact ⟨coll.name, coll.unicodeVersion, coll.cldrVersion, coll.description, crc32Ieee table,
    asU32 table.length, Lz4.compress table⟩

/-- The fields of `open_collation`. -/
def readArtifact : Cursor Artifact := do
  let magic ← take 6
  if magic ≠ ARTIFACT_MAGIC then throw (dataCorrupted "collation: bad artifact magic")
  else do
    let fmt ← readU16
    if fmt ≠ asU16 1 then
      throw (dataCorrupted s!"collation: unsupported artifact format_version {fmt}")
    else do
      let name ← readStr
      let unicodeVersion ← readStr
      let cldrVersion ← readStr
      let description ← readStr
      let hash ← readU32
      let rawLen ← readU32
      let compLen ← readU32
      let comp ← take compLen
      pure ⟨name, unicodeVersion, cldrVersion, description, hash, rawLen, comp⟩

/-- `open_collation`. -/
def openCollation (bytes : Bytes) : Except Failure Collation := do
  let a ← readWhole readArtifact "collation: trailing bytes after artifact" bytes
  let table ← Lz4.decompress a.comp a.rawLen
  if crc32Ieee table ≠ a.hash then .error (dataCorrupted "collation: artifact content hash mismatch")
  else do
    let (singles, contractions) ← deserializeTable table
    .ok ⟨a.name, a.unicodeVersion, a.cldrVersion, a.description, singles, contractions⟩

def FitsStr (s : Str) : Prop := s.val.length < 65536

/-- The strings of an artifact and its compressed table fit their fields. -/
structure FitsArtifact (a : Artifact) : Prop where
  name : FitsStr a.name
  unicodeVersion : FitsStr a.unicodeVersion
  cldrVersion : FitsStr a.cldrVersion
  description : FitsStr a.description
  comp : a.comp.length < 2 ^ 32

/-- Every count and length of a collation fits its field. -/
structure FitsCollation (coll : Collation) : Prop where
  name : FitsStr coll.name
  unicodeVersion : FitsStr coll.unicodeVersion
  cldrVersion : FitsStr coll.cldrVersion
  description : FitsStr coll.description
  entries : FitsEntries (coll.singles, coll.contractions)
  table : (serializeTable coll).length < 2 ^ 32
  comp : (Lz4.compress (serializeTable coll)).length < 2 ^ 32

theorem asU32_val {n : ℕ} (h : n < 2 ^ 32) : (asU32 n : ℕ) = n := Nat.mod_eq_of_lt h

theorem inverse_str : Inverse FitsStr pushStr readStr where
  reads s hs := by
    unfold pushStr readStr
    refine (inverse_u16.reads ⟨s.val.length, hs⟩ trivial).bind ?_
    have htail : Reads (if h : ByteArray.validateUTF8 ⟨s.val.toArray⟩ = true then
        (pure ⟨s.val, h⟩ : Cursor Str)
      else throw (dataCorrupted "collation: artifact string not UTF-8")) [] s := by
      rw [dif_pos s.property]
      exact Reads.pure s
    exact (reads_take rfl).check htail
  takes := by
    refine inverse_u16.takes.bind fun n b hb => ?_
    refine (takes_take n).bind fun s c hc => ?_
    obtain ⟨rfl, hlen⟩ := hc
    by_cases h : ByteArray.validateUTF8 ⟨c.toArray⟩ = true
    · rw [dif_pos h]
      refine Takes.pure ⟨?_, ?_⟩
      · rw [FitsStr, hlen]
        exact n.isLt
      · rw [hb.2, List.append_nil, pushStr, pushU16, hlen]
    · rw [dif_neg h]
      exact Takes.throw

theorem inverse_artifact : Inverse FitsArtifact pushArtifact readArtifact where
  reads a ha := by
    unfold pushArtifact readArtifact
    refine (reads_take (n := 6) (s := ARTIFACT_MAGIC) rfl).bind ?_
    rw [if_neg (not_not.mpr rfl)]
    refine (inverse_u16.reads (asU16 1) trivial).bind ?_
    rw [if_neg (not_not.mpr rfl)]
    refine (inverse_str.reads a.name ha.name).bind ?_
    refine (inverse_str.reads a.unicodeVersion ha.unicodeVersion).bind ?_
    refine (inverse_str.reads a.cldrVersion ha.cldrVersion).bind ?_
    refine (inverse_str.reads a.description ha.description).bind ?_
    refine (inverse_u32.reads a.hash trivial).bind ?_
    refine (inverse_u32.reads a.rawLen trivial).bind ?_
    refine (inverse_u32.reads (count32 a.comp ha.comp) trivial).bind ?_
    exact (reads_take rfl).map
  takes := by
    refine (takes_take 6).bind fun magic b hb => ?_
    by_cases hmagic : magic = ARTIFACT_MAGIC
    · rw [if_neg (not_not.mpr hmagic)]
      refine inverse_u16.takes.bind fun fmt c hc => ?_
      by_cases hfmt : fmt = asU16 1
      · rw [if_neg (not_not.mpr hfmt)]
        refine inverse_str.takes.bind fun name d hd => ?_
        refine inverse_str.takes.bind fun unicodeVersion e he => ?_
        refine inverse_str.takes.bind fun cldrVersion f hf => ?_
        refine inverse_str.takes.bind fun description g hg => ?_
        refine inverse_u32.takes.bind fun hash i hi => ?_
        refine inverse_u32.takes.bind fun rawLen j hj => ?_
        refine inverse_u32.takes.bind fun compLen k hk => ?_
        refine (takes_take compLen).bind fun comp l hl => Takes.pure ?_
        refine ⟨⟨hd.1, he.1, hf.1, hg.1, hl.2 ▸ compLen.isLt⟩, ?_⟩
        rw [hb.1, hmagic, hc.2, hfmt, hd.2, he.2, hf.2, hg.2, hi.2, hj.2, hk.2, hl.1, List.append_nil,
          pushArtifact, hl.2]
        rfl
      · rw [if_pos hfmt]
        exact Takes.throw
    · rw [if_pos hmagic]
      exact Takes.throw

/-- Artifacts of the same strings and bytes have the same compressed table. -/
theorem comp_of_pushArtifact {a a' : Artifact} (h : pushArtifact a = pushArtifact a')
    (hname : a.name = a'.name) (hunicode : a.unicodeVersion = a'.unicodeVersion)
    (hcldr : a.cldrVersion = a'.cldrVersion) (hdescription : a.description = a'.description) :
    a.comp = a'.comp := by
  unfold pushArtifact at h
  rw [hname, hunicode, hcldr, hdescription] at h
  simp only [List.append_cancel_left_eq] at h
  have hlen : ∀ m n : ℕ, (beBytes 4 m).length = (beBytes 4 n).length := fun m n => by
    rw [beBytes_length, beBytes_length]
  obtain ⟨-, h⟩ := List.append_inj h (hlen _ _)
  obtain ⟨-, h⟩ := List.append_inj h (hlen _ _)
  exact (List.append_inj h (hlen _ _)).2

/-- A collation is read back as it was saved exactly where all its counts fit their fields. -/
theorem openCollation_saveCollation_iff (coll : Collation) :
    openCollation (saveCollation coll) = .ok coll ↔ FitsCollation coll := by
  constructor
  · intro h
    unfold openCollation at h
    obtain ⟨a, ha, h⟩ := bind_eq_ok.mp h
    obtain ⟨table, htable, h⟩ := bind_eq_ok.mp h
    split at h
    · cases h
    obtain ⟨⟨singles, contractions⟩, hentries, h⟩ := bind_eq_ok.mp h
    cases h
    obtain ⟨hfits, hsame⟩ := (inverse_artifact.readWhole _ _).1 _ ha
    obtain ⟨hfitsEntries, rfl⟩ := (inverse_table.readWhole _ _).1 _ hentries
    unfold saveCollation at hsame
    have hcomp := comp_of_pushArtifact hsame rfl rfl rfl rfl
    have hlen := Lz4.decompressFrom_sound a.rawLen a.comp []
    rw [← Lz4.decompress, htable] at hlen
    refine ⟨hfits.name, hfits.unicodeVersion, hfits.cldrVersion, hfits.description, hfitsEntries,
      ?_, ?_⟩
    · rw [serializeTable, hlen]
      exact a.rawLen.isLt
    · exact (congrArg List.length hcomp).trans_lt hfits.comp
  · intro h
    have hopen := (inverse_artifact.readWhole "collation: trailing bytes after artifact" _).2
      (⟨h.name, h.unicodeVersion, h.cldrVersion, h.description, h.comp⟩ : FitsArtifact
        ⟨coll.name, coll.unicodeVersion, coll.cldrVersion, coll.description,
          crc32Ieee (serializeTable coll), asU32 (serializeTable coll).length,
          Lz4.compress (serializeTable coll)⟩)
    unfold openCollation saveCollation
    rw [hopen]
    simp only [bind, Except.bind]
    rw [asU32_val h.table, Lz4.decompress_compress]
    dsimp only
    rw [if_neg (not_not.mpr rfl), deserializeTable, serializeTable,
      (inverse_table.readWhole _ _).2 h.entries]

end Jed.Unicode
