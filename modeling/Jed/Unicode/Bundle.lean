import Jed.Unicode.Artifact
import Jed.Lib.Overrides

/-!
# Bundles

A bundle of sections behind a manifest with their offsets (`collation.rs:927-1090`): a bundle of less than
4 GiB is read back exactly where every count fits its field.
-/

namespace Jed.Unicode

open Codec Key Readers Results

/-- `Entries`. -/
structure Entries where
  name : Str
  singles : List Single
  contractions : List Contraction

/-- `Section`. -/
inductive Section where
  | property (p : PropertyTable)
  | root (e : Entries)
  | tailoring (e : Entries)

/-- `Bundle`. -/
structure Bundle where
  unicodeVersion : Str
  cldrVersion : Str
  description : Str
  sections : List Section

/-- `BUNDLE_MAGIC`. -/
def BUNDLE_MAGIC : Bytes := [0x4a, 0x55, 0x43, 0x44, 0, 0]

namespace Section

/-- The kind of a section, and the name that the manifest records. -/
def kind : Section → UInt8
  | property _ => 0
  | root _ => 1
  | tailoring _ => 2

def name : Section → Str
  | property _ => ⟨[], by decide⟩
  | root e | tailoring e => e.name

/-- The bytes of a section. -/
def raw : Section → Bytes
  | property p => serializeProperty p
  | root e | tailoring e => serializeEntries (e.singles, e.contractions)

def comp (s : Section) : Bytes := Lz4.compress s.raw

end Section

/-- An entry of the manifest. -/
structure ManifestEntry where
  kind : UInt8
  name : Str
  hash : U32
  rawLen : U32
  compLen : U32
  offset : U32

def pushEntry (m : ManifestEntry) : Bytes :=
  [m.kind] ++ (pushStr m.name ++ (pushU32 m.hash ++ (pushU32 m.rawLen ++ (pushU32 m.compLen ++
    pushU32 m.offset))))

/-- The entry of a section whose body is at `off`. -/
def manifestEntry (off : Nat) (s : Section) : ManifestEntry :=
  ⟨s.kind, s.name, crc32Ieee s.raw, asU32 s.raw.length, asU32 s.comp.length, asU32 off⟩

/-- The entries of sections whose bodies stand from `off` on. -/
def manifestFrom (off : Nat) : List Section → List ManifestEntry
  | [] => []
  | s :: sections => manifestEntry off s :: manifestFrom (off + s.comp.length) sections

/-- `manifest_len`. -/
def manifestLen (sections : List Section) : Nat :=
  2 + (sections.map fun s => 1 + 2 + s.name.val.length + 4 + 4 + 4 + 4).sum

def header (b : Bundle) : Bytes :=
  BUNDLE_MAGIC ++ (beBytes 2 1 ++ (pushStr b.unicodeVersion ++ (pushStr b.cldrVersion ++
    pushStr b.description)))

/-- `manifest`. -/
def manifest (bodyStart : Nat) (sections : List Section) : Bytes :=
  beBytes 2 sections.length ++ (manifestFrom bodyStart sections).flatMap pushEntry

/-- A bundle less its checksum. -/
def saveBody (b : Bundle) : Bytes :=
  header b ++ (manifest ((header b).length + manifestLen b.sections) b.sections ++
    b.sections.flatMap Section.comp)

/-- `save_bundle`. -/
def saveBundle (b : Bundle) : Bytes := saveBody b ++ pushU32 (crc32Ieee (saveBody b))

def readEntry : Cursor ManifestEntry := do
  let kind ← readU8
  let name ← readStr
  let hash ← readU32
  let rawLen ← readU32
  let compLen ← readU32
  let offset ← readU32
  pure ⟨kind, name, hash, rawLen, compLen, offset⟩

/-- What is read before the sections are. -/
structure Manifest where
  unicodeVersion : Str
  cldrVersion : Str
  description : Str
  entries : List ManifestEntry

/-- The header and the manifest of `open_bundle`. -/
def readManifest : Cursor Manifest := do
  let magic ← take 6
  if magic ≠ BUNDLE_MAGIC then throw (dataCorrupted "bundle: bad magic")
  else do
    let fmt ← readU16
    if fmt ≠ asU16 1 then throw (dataCorrupted s!"bundle: unsupported format_version {fmt}")
    else do
      let unicodeVersion ← readStr
      let cldrVersion ← readStr
      let description ← readStr
      let count ← readU16
      let entries ← readMany count readEntry
      pure ⟨unicodeVersion, cldrVersion, description, entries⟩

/-- A section, by its kind. -/
def parseSection (kind : UInt8) (name : Str) (raw : Bytes) : Except Failure Section :=
  if kind = 0 then (deserializeProperty raw).map .property
  else if kind = 1 then (deserializeTable raw).map fun t => .root ⟨name, t.1, t.2⟩
  else if kind = 2 then (deserializeTable raw).map fun t => .tailoring ⟨name, t.1, t.2⟩
  else .error (dataCorrupted s!"bundle: unknown section kind {kind}")

/-- The section of an entry, `bodyLen` being the length of the bundle less its checksum. -/
def openSection (bytes : Bytes) (bodyLen : Nat) (m : ManifestEntry) : Except Failure Section :=
  if bodyLen < m.offset ∨ bodyLen < m.offset + (m.compLen : Nat) then
    .error (dataCorrupted "bundle: section body out of range")
  else do
    let raw ← Lz4.decompress ((bytes.drop m.offset).take m.compLen) m.rawLen
    if crc32Ieee raw ≠ m.hash then .error (dataCorrupted "bundle: section content hash mismatch")
    else parseSection m.kind m.name raw

/-- `open_bundle`. -/
def openBundle (bytes : Bytes) : Except Failure Bundle :=
  if bytes.length < 4 then .error (dataCorrupted "bundle: truncated")
  else
    let body := bytes.take (bytes.length - 4)
    if (crc32Ieee body : Nat) ≠ beNat (bytes.drop (bytes.length - 4)) then
      .error (dataCorrupted "bundle: trailer checksum mismatch")
    else do
      let (h, _) ← readManifest bytes
      let sections ← h.entries.mapM (openSection bytes body.length)
      return ⟨h.unicodeVersion, h.cldrVersion, h.description, sections⟩

/-- The counts of a section fit their fields. -/
def FitsSection : Section → Prop
  | .property p => FitsProperty p
  | .root e | .tailoring e => FitsStr e.name ∧ FitsEntries (e.singles, e.contractions)

/-- Every count and length of a bundle fits its field, the lengths of compressed bodies and their offsets
    apart. -/
structure FitsBundle (b : Bundle) : Prop where
  unicodeVersion : FitsStr b.unicodeVersion
  cldrVersion : FitsStr b.cldrVersion
  description : FitsStr b.description
  sections : b.sections.length < 65536
  parts : ∀ s ∈ b.sections, FitsSection s ∧ s.raw.length < 2 ^ 32

theorem inverse_entry : Inverse (fun m => FitsStr m.name) pushEntry readEntry where
  reads m hm := by
    unfold pushEntry readEntry
    refine (inverse_u8.reads m.kind trivial).bind ?_
    refine (inverse_str.reads m.name hm).bind ?_
    refine (inverse_u32.reads m.hash trivial).bind ?_
    refine (inverse_u32.reads m.rawLen trivial).bind ?_
    refine (inverse_u32.reads m.compLen trivial).bind ?_
    exact (inverse_u32.reads m.offset trivial).map
  takes := by
    refine inverse_u8.takes.bind fun kind b hb => ?_
    refine inverse_str.takes.bind fun name c hc => ?_
    refine inverse_u32.takes.bind fun hash d hd => ?_
    refine inverse_u32.takes.bind fun rawLen e he => ?_
    refine inverse_u32.takes.bind fun compLen f hf => ?_
    refine inverse_u32.takes.bind fun offset g hg => Takes.pure ⟨hc.1, ?_⟩
    rw [hb.2, hc.2, hd.2, he.2, hf.2, hg.2, List.append_nil]
    rfl

/-- The header and the manifest as they are read. -/
def pushManifest (h : Manifest) : Bytes :=
  BUNDLE_MAGIC ++ (beBytes 2 1 ++ (pushStr h.unicodeVersion ++ (pushStr h.cldrVersion ++
    (pushStr h.description ++ (beBytes 2 h.entries.length ++ h.entries.flatMap pushEntry)))))

structure FitsManifest (h : Manifest) : Prop where
  unicodeVersion : FitsStr h.unicodeVersion
  cldrVersion : FitsStr h.cldrVersion
  description : FitsStr h.description
  count : h.entries.length < 65536
  names : ∀ m ∈ h.entries, FitsStr m.name

theorem inverse_manifest : Inverse FitsManifest pushManifest readManifest where
  reads h hh := by
    unfold pushManifest readManifest
    refine (reads_take (n := 6) (s := BUNDLE_MAGIC) rfl).bind ?_
    rw [if_neg (not_not.mpr rfl)]
    refine (inverse_u16.reads (asU16 1) trivial).bind ?_
    rw [if_neg (not_not.mpr rfl)]
    refine (inverse_str.reads h.unicodeVersion hh.unicodeVersion).bind ?_
    refine (inverse_str.reads h.cldrVersion hh.cldrVersion).bind ?_
    refine (inverse_str.reads h.description hh.description).bind ?_
    refine (inverse_u16.reads ⟨h.entries.length, hh.count⟩ trivial).bind ?_
    exact (inverse_entry.many.1 h.entries hh.names).map
  takes := by
    refine (takes_take 6).bind fun magic b hb => ?_
    by_cases hmagic : magic = BUNDLE_MAGIC
    · rw [if_neg (not_not.mpr hmagic)]
      refine inverse_u16.takes.bind fun fmt c hc => ?_
      by_cases hfmt : fmt = asU16 1
      · rw [if_neg (not_not.mpr hfmt)]
        refine inverse_str.takes.bind fun unicodeVersion d hd => ?_
        refine inverse_str.takes.bind fun cldrVersion e he => ?_
        refine inverse_str.takes.bind fun description f hf => ?_
        refine inverse_u16.takes.bind fun count g hg => ?_
        refine (inverse_entry.many.2 count).bind fun entries i hi => Takes.pure ?_
        obtain ⟨hcount, hnames, rfl⟩ := hi
        refine ⟨⟨hd.1, he.1, hf.1, hcount ▸ count.isLt, hnames⟩, ?_⟩
        rw [hb.1, hmagic, hc.2, hfmt, hd.2, he.2, hf.2, hg.2, List.append_nil, pushManifest, hcount]
        rfl
      · rw [if_pos hfmt]
        exact Takes.throw
    · rw [if_pos hmagic]
      exact Takes.throw

variable {s : Section}

theorem parseSection_raw (h : FitsSection s) : parseSection s.kind s.name s.raw = .ok s := by
  cases s with
  | property p =>
    have hkind : (Section.property p).kind = 0 := rfl
    rw [parseSection, hkind, if_pos rfl, deserializeProperty, Section.raw,
      (inverse_property.readWhole _ _).2 h]
    rfl
  | root e =>
    have hkind : (Section.root e).kind = 1 := rfl
    rw [parseSection, hkind, if_neg (by decide), if_pos rfl, deserializeTable, Section.raw,
      (inverse_table.readWhole _ _).2 h.2]
    rfl
  | tailoring e =>
    have hkind : (Section.tailoring e).kind = 2 := rfl
    rw [parseSection, hkind, if_neg (by decide), if_neg (by decide), if_pos rfl, deserializeTable,
      Section.raw, (inverse_table.readWhole _ _).2 h.2]
    rfl

/-- A section that is parsed fits, and has the bytes it was parsed of. -/
theorem parseSection_ok {kind : UInt8} {name : Str} {raw : Bytes} (hname : FitsStr name)
    (h : parseSection kind name raw = .ok s) : FitsSection s ∧ s.raw = raw := by
  unfold parseSection at h
  split at h
  · obtain ⟨p, hp, rfl⟩ := map_eq_ok.mp h
    obtain ⟨hfits, rfl⟩ := (inverse_property.readWhole _ _).1 _ hp
    exact ⟨hfits, rfl⟩
  · split at h
    · obtain ⟨t, ht, rfl⟩ := map_eq_ok.mp h
      obtain ⟨hfits, rfl⟩ := (inverse_table.readWhole _ _).1 _ ht
      exact ⟨⟨hname, hfits⟩, rfl⟩
    · split at h
      · obtain ⟨t, ht, rfl⟩ := map_eq_ok.mp h
        obtain ⟨hfits, rfl⟩ := (inverse_table.readWhole _ _).1 _ ht
        exact ⟨⟨hname, hfits⟩, rfl⟩
      · cases h

variable {bodyLen : ℕ}

/-- Any section that is opened fits, and its bytes fit the field of their length. -/
theorem openSection_ok {bytes : Bytes} {m : ManifestEntry}
    (hname : FitsStr m.name) (h : openSection bytes bodyLen m = .ok s) : FitsSection s ∧ s.raw.length < 2 ^ 32 := by
  unfold openSection at h
  split at h
  · cases h
  · obtain ⟨raw, hraw, h⟩ := bind_eq_ok.mp h
    split at h
    · cases h
    · obtain ⟨hfits, rfl⟩ := parseSection_ok hname h
      have hlen := Lz4.decompressFrom_sound m.rawLen ((bytes.drop m.offset).take m.compLen) []
      rw [← Lz4.decompress, hraw] at hlen
      exact ⟨hfits, hlen ▸ m.rawLen.isLt⟩

/-- A section is read back from where its body stands. -/
theorem openSection_body {pre post : Bytes} (hfits : FitsSection s)
    (hraw : s.raw.length < 2 ^ 32) (hend : pre.length + s.comp.length ≤ bodyLen) (hlen : bodyLen < 2 ^ 32) :
    openSection (pre ++ (s.comp ++ post)) bodyLen (manifestEntry pre.length s) = .ok s := by
  have hoff : (asU32 pre.length : ℕ) = pre.length := asU32_val (by omega)
  have hcomp : (asU32 s.comp.length : ℕ) = s.comp.length := asU32_val (by omega)
  unfold openSection manifestEntry
  dsimp only
  rw [hoff, hcomp, if_neg (by omega), List.drop_left, List.take_left, asU32_val hraw, Section.comp,
    Lz4.decompress_compress]
  simp only [bind, Except.bind]
  rw [if_neg (not_not.mpr rfl)]
  exact parseSection_raw hfits

/-- The sections are read back in turn. -/
theorem mapM_openSection {sections : List Section}
    (hfits : ∀ s ∈ sections, FitsSection s ∧ s.raw.length < 2 ^ 32) (hlen : bodyLen < 2 ^ 32) (post : Bytes) : ∀ pre : Bytes,
    pre.length + (sections.flatMap Section.comp).length ≤ bodyLen →
    (manifestFrom pre.length sections).mapM
      (openSection (pre ++ (sections.flatMap Section.comp ++ post)) bodyLen) = .ok sections := by
  induction sections with
  | nil => exact fun _ _ => rfl
  | cons s sections ih =>
    intro pre hend
    rw [List.flatMap_cons, List.length_append] at hend
    obtain ⟨hs, hraw⟩ := hfits s List.mem_cons_self
    have hrest := ih (fun t ht => hfits t (List.mem_cons_of_mem _ ht)) (pre ++ s.comp) (by
      rw [List.length_append]
      omega)
    rw [List.length_append, List.append_assoc] at hrest
    rw [manifestFrom, List.flatMap_cons, List.append_assoc, List.mapM_cons,
      openSection_body hs hraw (by omega) hlen, hrest]
    rfl

/-- The manifest of a bundle. -/
def manifestOf (b : Bundle) : Manifest :=
  ⟨b.unicodeVersion, b.cldrVersion, b.description,
    manifestFrom ((header b).length + manifestLen b.sections) b.sections⟩

theorem manifestFrom_length (sections : List Section) :
    ∀ off, (manifestFrom off sections).length = sections.length := by
  induction sections with
  | nil => exact fun _ => rfl
  | cons s sections ih => exact fun off => congrArg (· + 1) (ih _)

theorem pushEntry_length (m : ManifestEntry) :
    (pushEntry m).length = 1 + 2 + m.name.val.length + 4 + 4 + 4 + 4 := by
  simp only [pushEntry, pushStr, pushU32, List.length_append, beBytes_length, List.length_singleton]
  omega

theorem entries_length (sections : List Section) : ∀ off,
    ((manifestFrom off sections).flatMap pushEntry).length =
      (sections.map fun s => 1 + 2 + s.name.val.length + 4 + 4 + 4 + 4).sum := by
  induction sections with
  | nil => exact fun _ => rfl
  | cons s sections ih =>
    intro off
    rw [manifestFrom, List.flatMap_cons, List.length_append, pushEntry_length, ih, List.map_cons,
      List.sum_cons]
    rfl

theorem pushManifest_length (b : Bundle) :
    (pushManifest (manifestOf b)).length = (header b).length + manifestLen b.sections := by
  have hsplit : pushManifest (manifestOf b) = header b ++ (beBytes 2 (manifestOf b).entries.length ++
      (manifestOf b).entries.flatMap pushEntry) := by
    simp only [pushManifest, header, List.append_assoc]
    rfl
  rw [hsplit, List.length_append, List.length_append, beBytes_length, manifestOf, entries_length]
  rfl

theorem saveBody_eq (b : Bundle) :
    saveBody b = pushManifest (manifestOf b) ++ b.sections.flatMap Section.comp := by
  simp only [saveBody, header, manifest, pushManifest, manifestOf, manifestFrom_length, List.append_assoc]

theorem pushU32_length (n : U32) : (pushU32 n).length = 4 := beBytes_length 4 n

/-- The checksum of a saved bundle is that of what is before it. -/
theorem openBundle_saveBundle (b : Bundle) :
    openBundle (saveBundle b) = (do
      let (h, _) ← readManifest (saveBundle b)
      let sections ← h.entries.mapM (openSection (saveBundle b) (saveBody b).length)
      return ⟨h.unicodeVersion, h.cldrVersion, h.description, sections⟩) := by
  have hlen : (saveBundle b).length - 4 = (saveBody b).length := by
    rw [saveBundle, List.length_append, pushU32_length, Nat.add_sub_cancel]
  have hfour : ¬(saveBundle b).length < 4 := by
    rw [saveBundle, List.length_append, pushU32_length]
    omega
  have hbody : (saveBundle b).take (saveBody b).length = saveBody b := List.take_left
  have htrailer : (saveBundle b).drop (saveBody b).length = pushU32 (crc32Ieee (saveBody b)) :=
    List.drop_left
  have hcrc : beNat (pushU32 (crc32Ieee (saveBody b))) = (crc32Ieee (saveBody b) : ℕ) := by
    rw [pushU32, beNat_beBytes]
    exact Nat.mod_eq_of_lt (crc32Ieee (saveBody b)).isLt
  rw [openBundle, if_neg hfour, hlen, hbody, htrailer, hcrc]
  simp only [ne_eq, not_true_eq_false, if_false]

theorem name_fits (h : FitsSection s) : FitsStr s.name := by
  cases s with
  | property p => exact (by decide : 0 < 65536)
  | root e => exact h.1
  | tailoring e => exact h.1

theorem names_fit {sections : List Section} (h : ∀ s ∈ sections, FitsSection s) :
    ∀ off, ∀ m ∈ manifestFrom off sections, FitsStr m.name := by
  induction sections with
  | nil => exact fun _ _ hm => absurd hm List.not_mem_nil
  | cons s sections ih =>
    intro off m hm
    rcases List.mem_cons.mp hm with rfl | hm
    · exact name_fits (h s List.mem_cons_self)
    · exact ih (fun t ht => h t (List.mem_cons_of_mem _ ht)) _ m hm

/-- A bundle of less than 4 GiB is read back as it was saved exactly where all its counts fit their
    fields. -/
theorem openBundle_saveBundle_iff (b : Bundle) (hsize : (saveBundle b).length < 2 ^ 32) :
    openBundle (saveBundle b) = .ok b ↔ FitsBundle b := by
  rw [openBundle_saveBundle]
  constructor
  · intro h
    obtain ⟨⟨m, rest⟩, hm, h⟩ := bind_eq_ok.mp h
    obtain ⟨sections, hsections, h⟩ := bind_eq_ok.mp h
    cases h
    obtain ⟨-, -, hfits, -⟩ := inverse_manifest.takes _ _ _ hm
    have hall := forall₂_of_mapM hsections
    refine ⟨hfits.unicodeVersion, hfits.cldrVersion, hfits.description, ?_, fun s hs => ?_⟩
    · rw [← hall.length_eq]
      exact hfits.count
    · obtain ⟨e, he, hopen⟩ := (mem_of_forall₂ hall).1 s hs
      exact openSection_ok (hfits.names e he) hopen
  · intro h
    have hfits : FitsManifest (manifestOf b) := by
      refine ⟨h.unicodeVersion, h.cldrVersion, h.description, ?_, ?_⟩
      · rw [manifestOf, manifestFrom_length]
        exact h.sections
      · exact names_fit (fun s hs => (h.parts s hs).1) _
    have hbytes : saveBundle b = pushManifest (manifestOf b) ++
        (b.sections.flatMap Section.comp ++ pushU32 (crc32Ieee (saveBody b))) := by
      rw [saveBundle, ← List.append_assoc, ← saveBody_eq]
    have hread := inverse_manifest.reads _ hfits
      (b.sections.flatMap Section.comp ++ pushU32 (crc32Ieee (saveBody b)))
    have hbody : (saveBody b).length < 2 ^ 32 := by
      rw [saveBundle, List.length_append] at hsize
      omega
    have hsections := mapM_openSection h.parts hbody (pushU32 (crc32Ieee (saveBody b)))
      (pushManifest (manifestOf b)) (by rw [saveBody_eq, List.length_append])
    rw [pushManifest_length, ← hbytes] at hsections
    rw [← hbytes] at hread
    rw [hread]
    simp only [bind, Except.bind]
    have hentries : (manifestOf b).entries =
        manifestFrom ((header b).length + manifestLen b.sections) b.sections := rfl
    rw [hentries, hsections]
    rfl

end Jed.Unicode

/-!
## Tailorings

A bundle is built of a root and of what each tailoring adds to it or replaces, and loading it gives every
table back (`collation.rs:1092-1226`).
-/

namespace Jed.Unicode

open Codec Key

/-- `build_bundle`, with `diff_against_root`. -/
def buildBundle (root : Collation) (tailorings : List Collation) (property : Option PropertyTable)
    (description : Str) : Bundle :=
  ⟨root.unicodeVersion, root.cldrVersion, description,
    (property.map Section.property).toList ++
      (.root ⟨root.name, root.singles, root.contractions⟩ ::
        tailorings.map fun t => .tailoring ⟨t.name, SortedMap.diff t.singles root.singles,
          SortedMap.diff t.contractions root.contractions⟩)⟩

/-- `mk` of `load_bundle`. -/
def Bundle.collation (b : Bundle) (name : Str) (singles : List Single) (contractions : List Contraction) :
    Collation :=
  ⟨name, b.unicodeVersion, b.cldrVersion, b.description, singles, contractions⟩

/-- The section of the root. -/
def Section.root? : Section → Option Entries
  | .root e => some e
  | _ => none

/-- The loop of `load_bundle` over the sections, with `merge_onto_root`. -/
def loadSections (b : Bundle) (root : Option Entries) :
    List Section → List Collation → Option PropertyTable →
      Except Failure (List Collation × Option PropertyTable)
  | [], colls, property => .ok (colls, property)
  | .property p :: sections, colls, _ => loadSections b root sections colls (some p)
  | .root _ :: sections, colls, property => loadSections b root sections colls property
  | .tailoring t :: sections, colls, property =>
    match root with
    | none => .error (dataCorrupted "bundle: tailoring without a root section")
    | some r =>
      loadSections b root sections (colls ++ [b.collation t.name
        (SortedMap.override r.singles t.singles)
        (SortedMap.override r.contractions t.contractions)]) property

/-- `load_bundle`. -/
def loadBundle (b : Bundle) : Except Failure (List Collation × Option PropertyTable) :=
  let root := b.sections.findSome? Section.root?
  loadSections b root b.sections
    ((root.map fun r => b.collation r.name r.singles r.contractions).toList) none

/-- The mappings of a table as `compile_collation` sorts them. -/
structure Compiled (coll : Collation) : Prop where
  singles : SortedMap.Sorted coll.singles
  contractions : SortedMap.Sorted coll.contractions

/-- A tailoring maps what its root maps, and adds to it or replaces. -/
structure Extends (root t : Collation) : Prop where
  compiled : Compiled t
  singles : ∀ e ∈ root.singles, ∃ ces, SortedMap.get e.1 t.singles = some ces
  contractions : ∀ e ∈ root.contractions, ∃ ces, SortedMap.get e.1 t.contractions = some ces

/-- A collation with the version and the description of a bundle. -/
def Bundle.relabel (b : Bundle) (coll : Collation) : Collation :=
  b.collation coll.name coll.singles coll.contractions

theorem loadSections_tailorings (b : Bundle) {root : Collation} (hroot : Compiled root)
    (property : Option PropertyTable) {tailorings : List Collation}
    (h : ∀ t ∈ tailorings, Extends root t) :
    ∀ colls, loadSections b (some ⟨root.name, root.singles, root.contractions⟩)
      (tailorings.map fun t => .tailoring ⟨t.name, SortedMap.diff t.singles root.singles,
        SortedMap.diff t.contractions root.contractions⟩)
      colls property = .ok (colls ++ tailorings.map b.relabel, property) := by
  induction tailorings with
  | nil =>
    intro colls
    rw [List.map_nil, List.map_nil, List.append_nil]
    rfl
  | cons t tailorings ih =>
    intro colls
    have ht := h t List.mem_cons_self
    rw [List.map_cons, loadSections,
      SortedMap.override_diff ht.compiled.singles hroot.singles ht.singles,
      SortedMap.override_diff ht.compiled.contractions hroot.contractions ht.contractions,
      ih fun t ht => h t (List.mem_cons_of_mem _ ht), List.map_cons, List.append_assoc]
    rfl

theorem loadBundle_buildBundle {root : Collation} {tailorings : List Collation} (hroot : Compiled root)
    (h : ∀ t ∈ tailorings, Extends root t) (property : Option PropertyTable) (description : Str) :
    loadBundle (buildBundle root tailorings property description) =
      .ok ((root :: tailorings).map (buildBundle root tailorings property description).relabel,
        property) := by
  cases property with
  | none => exact loadSections_tailorings _ hroot none h _
  | some p => exact loadSections_tailorings _ hroot (some p) h _

/-- Artifacts are read back exactly where every count and length fits its field, bundles of less than 4 GiB
    likewise, and loading a bundle gives the tables it was built of. -/
theorem round_trips (coll root : Collation) (tailorings : List Collation)
    (property : Option PropertyTable) (description : Str) :
    (openCollation (saveCollation coll) = .ok coll ↔ FitsCollation coll) ∧
      (Compiled root → (∀ t ∈ tailorings, Extends root t) →
        loadBundle (buildBundle root tailorings property description) =
            .ok ((root :: tailorings).map (buildBundle root tailorings property description).relabel,
              property) ∧
          ((saveBundle (buildBundle root tailorings property description)).length < 2 ^ 32 →
            (openBundle (saveBundle (buildBundle root tailorings property description)) =
                .ok (buildBundle root tailorings property description) ↔
              FitsBundle (buildBundle root tailorings property description)))) :=
  ⟨openCollation_saveCollation_iff coll, fun hroot h =>
    ⟨loadBundle_buildBundle hroot h property description, openBundle_saveBundle_iff _⟩⟩

/-- A text of ASCII letters, for names. -/
def lettered : Str := ⟨[0x75], by decide⟩

/-- A root with one mapping, and a tailoring that replaces it and adds another. -/
theorem round_trips_tailored :
    loadBundle (buildBundle ⟨lettered, lettered, lettered, lettered, [(0x61, [⟨0, 1, 2, 3⟩])], []⟩
        [⟨lettered, lettered, lettered, lettered, [(0x61, []), (0x62, [⟨0, 4, 5, 6⟩])], []⟩] none
        lettered) =
      .ok ([⟨lettered, lettered, lettered, lettered, [(0x61, [⟨0, 1, 2, 3⟩])], []⟩,
        ⟨lettered, lettered, lettered, lettered, [(0x61, []), (0x62, [⟨0, 4, 5, 6⟩])], []⟩],
        none) := by
  have hroot : Compiled ⟨lettered, lettered, lettered, lettered, [(0x61, [⟨0, 1, 2, 3⟩])], []⟩ :=
    ⟨List.pairwise_singleton _ _, List.Pairwise.nil⟩
  have hsingles : SortedMap.Sorted ([(0x61, []), (0x62, [⟨0, 4, 5, 6⟩])] : List Single) :=
    List.pairwise_pair.mpr (by decide)
  refine ((round_trips ⟨lettered, lettered, lettered, lettered, [], []⟩ _ _ none lettered).2 hroot
    fun t ht => ?_).1
  cases List.mem_singleton.mp ht
  refine ⟨⟨hsingles, List.Pairwise.nil⟩, fun e he => ?_, fun e he => absurd he List.not_mem_nil⟩
  cases List.mem_singleton.mp he
  exact ⟨[], rfl⟩

/-- A collation whose one mapping has 256 collation elements. -/
def crowded : Collation :=
  ⟨lettered, lettered, lettered, lettered, [(asU32 0x61, List.replicate 256 ⟨0, asU16 1, asU16 2, asU16 3⟩)], []⟩

/-- The count of 256 collation elements is written as 0. -/
theorem openCollation_crowded : openCollation (saveCollation crowded) ≠ .ok crowded := by
  intro h
  have hfits := (openCollation_saveCollation_iff crowded).mp h
  have hces := hfits.entries.ces _ List.mem_cons_self
  rw [FitsCes, List.length_replicate] at hces
  exact lt_irrefl _ hces

end Jed.Unicode
