import Jed.Codec.Page
import Jed.Lib.Results
import Jed.Wire.Parts

/-!
# Stored collation tables

The bytes of a compiled table and of the casing tables (`collation.rs:576-607`, `:769-860`,
`:1228-1288`). Counts are cut to the width of their field as they are written.
-/

namespace Jed.Unicode

open Codec Key Readers Results

/-- A `u16` and a `u32`. -/
abbrev U16 := Fin 65536
abbrev U32 := Fin 4294967296

theorem neZero_u16 : NeZero 65536 := ⟨by decide⟩
theorem neZero_u32 : NeZero 4294967296 := ⟨by decide⟩

/-- `as u16` and `as u32`. -/
def asU16 (n : Nat) : U16 := @Fin.ofNat 65536 neZero_u16 n
def asU32 (n : Nat) : U32 := @Fin.ofNat 4294967296 neZero_u32 n

/-- `Ce` (`collation.rs:22-30`). -/
structure Ce where
  flags : UInt8
  l1 : U16
  l2 : U16
  l3 : U16
  deriving DecidableEq

/-- A mapping of one code point, and one of a sequence. -/
abbrev Single := U32 × List Ce
abbrev Contraction := List U32 × List Ce

/-- `SpecialCasing`. -/
structure SpecialCasing where
  cp : U32
  upper : List U32
  lower : List U32
  title : List U32
  deriving DecidableEq

/-- `PropertyTable`. -/
structure PropertyTable where
  simple : List (U32 × U32 × U32 × U32)
  special : List SpecialCasing
  deriving DecidableEq

def pushU16 (n : U16) : Bytes := beBytes 2 n
def pushU32 (n : U32) : Bytes := beBytes 4 n

/-- `len() as u8`. -/
def pushLen8 (n : Nat) : Bytes := [UInt8.ofNat n]

/-- `push_ce`. -/
def pushCe (ce : Ce) : Bytes := [ce.flags] ++ (pushU16 ce.l1 ++ (pushU16 ce.l2 ++ pushU16 ce.l3))

def pushCes (ces : List Ce) : Bytes := pushLen8 ces.length ++ ces.flatMap pushCe

/-- `push_cps`. -/
def pushCps (cps : List U32) : Bytes := pushLen8 cps.length ++ cps.flatMap pushU32

def pushSingle (s : Single) : Bytes := pushU32 s.1 ++ pushCes s.2

def pushContraction (c : Contraction) : Bytes := pushCps c.1 ++ pushCes c.2

/-- `serialize_entries`. -/
def serializeEntries (t : List Single × List Contraction) : Bytes :=
  [1] ++ (beBytes 4 t.1.length ++ (beBytes 4 t.2.length ++
    (t.1.flatMap pushSingle ++ t.2.flatMap pushContraction)))

def pushSimple (m : U32 × U32 × U32 × U32) : Bytes :=
  pushU32 m.1 ++ (pushU32 m.2.1 ++ (pushU32 m.2.2.1 ++ pushU32 m.2.2.2))

def pushSpecial (sc : SpecialCasing) : Bytes :=
  pushU32 sc.cp ++ (pushCps sc.upper ++ (pushCps sc.lower ++ pushCps sc.title))

/-- `serialize_property`. -/
def serializeProperty (p : PropertyTable) : Bytes :=
  [1] ++ (beBytes 4 p.simple.length ++ (p.simple.flatMap pushSimple ++
    (beBytes 4 p.special.length ++ p.special.flatMap pushSpecial)))

/-- `Reader::take`. -/
def take (n : Nat) : Cursor Bytes := fun buf =>
  if buf.length < n then .error (dataCorrupted "collation: artifact truncated")
  else .ok (buf.take n, buf.drop n)

/-- `Reader::u8`. -/
def readU8 : Cursor UInt8 := do
  match ← take 1 with
  | b :: _ => pure b
  | [] => throw .panic

/-- `Reader::u16`. -/
def readU16 : Cursor U16 := do
  let s ← take 2
  pure (asU16 (beNat s))

/-- `Reader::u32`. -/
def readU32 : Cursor U32 := do
  let s ← take 4
  pure (asU32 (beNat s))

/-- `n` reads in turn. -/
def readMany {α : Type} (n : Nat) (r : Cursor α) : Cursor (List α) :=
  readEach (fun _ => r) (List.range n)

/-- `Reader::ce`. -/
def readCe : Cursor Ce := do
  let flags ← readU8
  let l1 ← readU16
  let l2 ← readU16
  let l3 ← readU16
  pure ⟨flags, l1, l2, l3⟩

def readCes : Cursor (List Ce) := do
  let n ← readU8
  readMany n.toNat readCe

/-- `Reader::cps`. -/
def readCps : Cursor (List U32) := do
  let n ← readU8
  readMany n.toNat readU32

def readSingle : Cursor Single := do
  let cp ← readU32
  let ces ← readCes
  pure (cp, ces)

def readContraction : Cursor Contraction := do
  let seq ← readCps
  let ces ← readCes
  pure (seq, ces)

/-- The entries of `deserialize_table`. -/
def readTable : Cursor (List Single × List Contraction) := do
  let layout ← readU8
  if layout ≠ 1 then
    throw (dataCorrupted s!"collation: unsupported table layout_version {layout}")
  else do
    let numSingles ← readU32
    let numContractions ← readU32
    let singles ← readMany numSingles readSingle
    let contractions ← readMany numContractions readContraction
    pure (singles, contractions)

def readSimple : Cursor (U32 × U32 × U32 × U32) := do
  let cp ← readU32
  let u ← readU32
  let l ← readU32
  let t ← readU32
  pure (cp, u, l, t)

def readSpecial : Cursor SpecialCasing := do
  let cp ← readU32
  let upper ← readCps
  let lower ← readCps
  let title ← readCps
  pure ⟨cp, upper, lower, title⟩

/-- The entries of `deserialize_property`. -/
def readProperty : Cursor PropertyTable := do
  let layout ← readU8
  if layout ≠ 1 then
    throw (dataCorrupted s!"bundle: unsupported property layout_version {layout}")
  else do
    let numSimple ← readU32
    let simple ← readMany numSimple readSimple
    let numSpecial ← readU32
    let special ← readMany numSpecial readSpecial
    pure ⟨simple, special⟩

/-- What a reader makes of bytes that it has to take whole. -/
def readWhole {α : Type} (r : Cursor α) (trailing : String) (bytes : Bytes) : Except Failure α := do
  let (v, rest) ← r bytes
  if rest ≠ [] then .error (dataCorrupted trailing) else .ok v

/-- `deserialize_table`. -/
def deserializeTable : Bytes → Except Failure (List Single × List Contraction) :=
  readWhole readTable "collation: trailing bytes after table"

/-- `deserialize_property`. -/
def deserializeProperty : Bytes → Except Failure PropertyTable :=
  readWhole readProperty "bundle: trailing bytes after property table"

def FitsCes (ces : List Ce) : Prop := ces.length < 256
def FitsCps (cps : List U32) : Prop := cps.length < 256

/-- The counts of the mappings are those of their fields. -/
structure FitsEntries (t : List Single × List Contraction) : Prop where
  singles : t.1.length < 2 ^ 32
  contractions : t.2.length < 2 ^ 32
  ces : ∀ s ∈ t.1, FitsCes s.2
  seqs : ∀ c ∈ t.2, FitsCps c.1 ∧ FitsCes c.2

/-- The counts of the casing tables are those of their fields. -/
structure FitsProperty (p : PropertyTable) : Prop where
  simple : p.simple.length < 2 ^ 32
  special : p.special.length < 2 ^ 32
  cps : ∀ sc ∈ p.special, FitsCps sc.upper ∧ FitsCps sc.lower ∧ FitsCps sc.title

/-- A reader reads back what is written of a value that fits, and takes nothing else. -/
structure Inverse {α : Type} (fits : α → Prop) (write : α → Bytes) (read : Cursor α) : Prop where
  reads : ∀ a, fits a → Reads read (write a) a
  takes : Takes read fun b a => fits a ∧ b = write a

variable {α β : Type}

variable {fits : α → Prop} {write : α → Bytes} {read : Cursor α}

/-- Bytes that a reader takes whole are those of what it returns, which fits. -/
theorem Inverse.readWhole (h : Inverse fits write read) (trailing : String) (a : α) :
    (∀ bytes, readWhole read trailing bytes = .ok a → fits a ∧ bytes = write a) ∧
      (fits a → readWhole read trailing (write a) = .ok a) := by
  constructor
  · intro bytes hread
    unfold Unicode.readWhole at hread
    obtain ⟨⟨v, rest⟩, hv, hlast⟩ := bind_eq_ok.mp hread
    obtain ⟨b, rfl, hfits, rfl⟩ := h.takes bytes v rest hv
    dsimp only at hlast
    split at hlast
    · cases hlast
    · rename_i hrest
      rw [not_not] at hrest
      cases hlast
      rw [hrest, List.append_nil]
      exact ⟨hfits, rfl⟩
  · intro hfits
    unfold Unicode.readWhole
    rw [(h.reads a hfits).run]
    rfl

theorem Inverse.pair {fits' : β → Prop} {write' : β → Bytes} {read' : Cursor β} (h : Inverse fits write read)
    (h' : Inverse fits' write' read') :
    Inverse (fun p : α × β => fits p.1 ∧ fits' p.2) (fun p => write p.1 ++ write' p.2)
      (read >>= fun a => read' >>= fun b => pure (a, b)) where
  reads p hp := (h.reads p.1 hp.1).bind ((h'.reads p.2 hp.2).map (f := fun b => (p.1, b)))
  takes := h.takes.bind fun a b hb => h'.takes.bind fun c d hd => Takes.pure (by
    rw [List.append_nil, hb.2, hd.2]
    exact ⟨⟨hb.1, hd.1⟩, rfl⟩)

/-- A counted list of values. -/
theorem Inverse.many (h : Inverse fits write read) :
    (∀ as : List α, (∀ a ∈ as, fits a) → Reads (readMany as.length read) (as.flatMap write) as) ∧
      ∀ n, Takes (readMany n read) fun b as =>
        as.length = n ∧ (∀ a ∈ as, fits a) ∧ b = as.flatMap write := by
  refine ⟨fun as has => Reads.times fun a ha => h.reads a (has a ha), fun n => ?_⟩
  refine (Takes.each fun _ _ => h.takes).mono fun b as hb => ?_
  obtain ⟨bs, rfl, hall, hlen⟩ := hb
  refine ⟨hlen.trans List.length_range, ?_, ?_⟩
  · clear hlen
    induction hall with
    | nil => exact fun a ha => absurd ha List.not_mem_nil
    | cons hab _ ih => exact List.forall_mem_cons.mpr ⟨hab.1, ih⟩
  · clear hlen
    induction hall with
    | nil => rfl
    | cons hab _ ih => rw [List.flatten_cons, List.flatMap_cons, ih, hab.2]

theorem reads_take {s : Bytes} {n : ℕ} (h : s.length = n) : Reads (take n) s s := by
  subst h
  intro rest
  simp [take]

theorem takes_take (n : ℕ) : Takes (take n) fun b s => b = s ∧ s.length = n := by
  intro buf v rest h
  unfold take at h
  split at h
  · cases h
  · rename_i hle
    cases h
    exact ⟨buf.take n, (List.take_append_drop n buf).symm, rfl, List.length_take_of_le (not_lt.mp hle)⟩

theorem inverse_u8 : Inverse (fun _ => True) (fun b => [b]) readU8 where
  reads b _ := (reads_take (s := [b]) rfl).bind (Reads.pure b)
  takes := (takes_take 1).bind fun s b hb => by
    obtain ⟨rfl, hlen⟩ := hb
    obtain ⟨x, rfl⟩ := List.length_eq_one_iff.mp hlen
    exact Takes.pure ⟨trivial, List.append_nil _⟩

theorem inverse_u16 : Inverse (fun _ => True) pushU16 readU16 where
  reads n _ := by
    have hread := (reads_take (beBytes_length 2 n)).map (f := fun s => asU16 (beNat s))
    have hvalue : asU16 (beNat (beBytes 2 n)) = n := by
      rw [beNat_beBytes, show 256 ^ 2 = 65536 from rfl, Nat.mod_eq_of_lt n.isLt]
      exact Fin.ofNat_val_eq_self n
    rwa [hvalue] at hread
  takes := (takes_take 2).bind fun s b hb => by
    obtain ⟨rfl, hlen⟩ := hb
    refine Takes.pure ⟨trivial, ?_⟩
    have hlt := beNat_lt b
    rw [hlen, show 256 ^ 2 = 65536 from rfl] at hlt
    rw [List.append_nil, pushU16, asU16, Fin.val_ofNat, Nat.mod_eq_of_lt hlt, ← hlen, Wire.beBytes_beNat]

theorem inverse_u32 : Inverse (fun _ => True) pushU32 readU32 where
  reads n _ := by
    have hread := (reads_take (beBytes_length 4 n)).map (f := fun s => asU32 (beNat s))
    have hvalue : asU32 (beNat (beBytes 4 n)) = n := by
      rw [beNat_beBytes, show 256 ^ 4 = 4294967296 from rfl, Nat.mod_eq_of_lt n.isLt]
      exact Fin.ofNat_val_eq_self n
    rwa [hvalue] at hread
  takes := (takes_take 4).bind fun s b hb => by
    obtain ⟨rfl, hlen⟩ := hb
    refine Takes.pure ⟨trivial, ?_⟩
    have hlt := beNat_lt b
    rw [hlen, show 256 ^ 4 = 4294967296 from rfl] at hlt
    rw [List.append_nil, pushU32, asU32, Fin.val_ofNat, Nat.mod_eq_of_lt hlt, ← hlen, Wire.beBytes_beNat]

/-- A list behind a count of one byte. -/
theorem inverse_list8 (h : Inverse fits write read) :
    Inverse (fun as : List α => as.length < 256 ∧ ∀ a ∈ as, fits a)
      (fun as => pushLen8 as.length ++ as.flatMap write)
      (readU8 >>= fun n => readMany n.toNat read) where
  reads as has := by
    have hlen : (UInt8.ofNat as.length).toNat = as.length := by
      rw [UInt8.toNat_ofNat', Nat.mod_eq_of_lt has.1]
    refine (inverse_u8.reads (UInt8.ofNat as.length) trivial).bind ?_
    rw [hlen]
    exact h.many.1 as has.2
  takes := inverse_u8.takes.bind fun n b hb => (h.many.2 n.toNat).mono fun c as has => by
    obtain ⟨hlen, hfits, rfl⟩ := has
    refine ⟨⟨hlen ▸ n.toNat_lt, hfits⟩, ?_⟩
    rw [hb.2, hlen, pushLen8, UInt8.ofNat_toNat]

theorem inverse_ce : Inverse (fun _ => True) pushCe readCe where
  reads ce _ := by
    unfold pushCe readCe
    refine (inverse_u8.reads ce.flags trivial).bind ?_
    refine (inverse_u16.reads ce.l1 trivial).bind ?_
    refine (inverse_u16.reads ce.l2 trivial).bind ?_
    exact (inverse_u16.reads ce.l3 trivial).map
  takes := by
    refine inverse_u8.takes.bind fun flags b hb => ?_
    refine inverse_u16.takes.bind fun l1 c hc => ?_
    refine inverse_u16.takes.bind fun l2 d hd => ?_
    refine inverse_u16.takes.bind fun l3 e he => Takes.pure ⟨trivial, ?_⟩
    rw [hb.2, hc.2, hd.2, he.2, List.append_nil]
    rfl

theorem Inverse.ofAll {fits : List α → Prop} {P : α → Prop} {write : List α → Bytes}
    {read : Cursor (List α)} (h : Inverse (fun as => fits as ∧ ∀ a ∈ as, P a) write read)
    (hP : ∀ a, P a) : Inverse fits write read where
  reads as has := h.reads as ⟨has, fun a _ => hP a⟩
  takes := h.takes.mono fun _ _ hb => ⟨hb.1.1, hb.2⟩

theorem inverse_ces : Inverse FitsCes pushCes readCes := (inverse_list8 inverse_ce).ofAll fun _ => trivial

theorem inverse_cps : Inverse FitsCps pushCps readCps := (inverse_list8 inverse_u32).ofAll fun _ => trivial

theorem inverse_single : Inverse (fun s : Single => FitsCes s.2) pushSingle readSingle where
  reads s hs := (inverse_u32.pair inverse_ces).reads s ⟨trivial, hs⟩
  takes := (inverse_u32.pair inverse_ces).takes.mono fun _ _ hb => ⟨hb.1.2, hb.2⟩

theorem inverse_contraction :
    Inverse (fun c : Contraction => FitsCps c.1 ∧ FitsCes c.2) pushContraction readContraction :=
  inverse_cps.pair inverse_ces

theorem inverse_simple : Inverse (fun _ => True) pushSimple readSimple where
  reads m _ := by
    unfold pushSimple readSimple
    refine (inverse_u32.reads m.1 trivial).bind ?_
    refine (inverse_u32.reads m.2.1 trivial).bind ?_
    refine (inverse_u32.reads m.2.2.1 trivial).bind ?_
    exact (inverse_u32.reads m.2.2.2 trivial).map
  takes := by
    refine inverse_u32.takes.bind fun cp b hb => ?_
    refine inverse_u32.takes.bind fun u c hc => ?_
    refine inverse_u32.takes.bind fun l d hd => ?_
    refine inverse_u32.takes.bind fun t e he => Takes.pure ⟨trivial, ?_⟩
    rw [hb.2, hc.2, hd.2, he.2, List.append_nil]
    rfl

theorem inverse_special :
    Inverse (fun sc => FitsCps sc.upper ∧ FitsCps sc.lower ∧ FitsCps sc.title) pushSpecial
      readSpecial where
  reads sc hsc := by
    unfold pushSpecial readSpecial
    refine (inverse_u32.reads sc.cp trivial).bind ?_
    refine (inverse_cps.reads sc.upper hsc.1).bind ?_
    refine (inverse_cps.reads sc.lower hsc.2.1).bind ?_
    exact (inverse_cps.reads sc.title hsc.2.2).map
  takes := by
    refine inverse_u32.takes.bind fun cp b hb => ?_
    refine inverse_cps.takes.bind fun upper c hc => ?_
    refine inverse_cps.takes.bind fun lower d hd => ?_
    refine inverse_cps.takes.bind fun title e he => Takes.pure ⟨⟨hc.1, hd.1, he.1⟩, ?_⟩
    rw [hb.2, hc.2, hd.2, he.2, List.append_nil]
    rfl

/-- The count of a list as its field has it. -/
def count32 {α : Type} (as : List α) (h : as.length < 2 ^ 32) : U32 := ⟨as.length, h⟩

theorem inverse_table : Inverse FitsEntries serializeEntries readTable where
  reads t ht := by
    unfold serializeEntries readTable
    refine (inverse_u8.reads 1 trivial).bind ?_
    rw [if_neg (not_not.mpr rfl)]
    refine (inverse_u32.reads (count32 t.1 ht.singles) trivial).bind ?_
    refine (inverse_u32.reads (count32 t.2 ht.contractions) trivial).bind ?_
    refine (inverse_single.many.1 t.1 ht.ces).bind ?_
    exact (inverse_contraction.many.1 t.2 ht.seqs).map
  takes := by
    refine inverse_u8.takes.bind fun layout b hb => ?_
    by_cases hlayout : layout = 1
    · rw [if_neg (not_not.mpr hlayout)]
      refine inverse_u32.takes.bind fun m c hc => ?_
      refine inverse_u32.takes.bind fun n d hd => ?_
      refine (inverse_single.many.2 m).bind fun singles e he => ?_
      refine (inverse_contraction.many.2 n).bind fun contractions f hf => Takes.pure ?_
      obtain ⟨hm, hces, rfl⟩ := he
      obtain ⟨hn, hseqs, rfl⟩ := hf
      refine ⟨⟨hm ▸ m.isLt, hn ▸ n.isLt, hces, hseqs⟩, ?_⟩
      rw [hb.2, hc.2, hd.2, hlayout, List.append_nil, serializeEntries, hm, hn, pushU32, pushU32]
    · rw [if_pos hlayout]
      exact Takes.throw

theorem inverse_property : Inverse FitsProperty serializeProperty readProperty where
  reads p hp := by
    unfold serializeProperty readProperty
    refine (inverse_u8.reads 1 trivial).bind ?_
    rw [if_neg (not_not.mpr rfl)]
    refine (inverse_u32.reads (count32 p.simple hp.simple) trivial).bind ?_
    refine (inverse_simple.many.1 p.simple fun _ _ => trivial).bind ?_
    refine (inverse_u32.reads (count32 p.special hp.special) trivial).bind ?_
    exact (inverse_special.many.1 p.special hp.cps).map
  takes := by
    refine inverse_u8.takes.bind fun layout b hb => ?_
    by_cases hlayout : layout = 1
    · rw [if_neg (not_not.mpr hlayout)]
      refine inverse_u32.takes.bind fun m c hc => ?_
      refine (inverse_simple.many.2 m).bind fun simple d hd => ?_
      refine inverse_u32.takes.bind fun n e he => ?_
      refine (inverse_special.many.2 n).bind fun special f hf => Takes.pure ?_
      obtain ⟨hm, -, rfl⟩ := hd
      obtain ⟨hn, hcps, rfl⟩ := hf
      refine ⟨⟨hm ▸ m.isLt, hn ▸ n.isLt, hcps⟩, ?_⟩
      rw [hb.2, hc.2, he.2, hlayout, List.append_nil, serializeProperty, hm, hn, pushU32, pushU32]
    · rw [if_pos hlayout]
      exact Takes.throw

end Jed.Unicode
