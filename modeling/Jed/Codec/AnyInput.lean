import Jed.Codec.RoundTrip

/-!
# Bodies that no one wrote

On any bytes both modes of the reader end in a value or in corrupt data, and where both accept they
have advanced alike. What is built has its strings counted in 16 bits.
-/

namespace Jed.Codec

open Readers Key Ranges

theorem sound_readString (mode : DecodeMode) {build : Bytes → Cursor Value} {P : Value → Prop}
    (hnull : P .null)
    (h : ∀ s : Bytes, s.length < 2 ^ 16 → Sound IsCorrupt (build s) P) :
    Sound IsCorrupt (readString mode build) P := by
  refine (sound_readBe 2).bind fun len hlen => (sound_take len).bind fun bytes hbytes => ?_
  cases mode with
  | construct => exact h bytes (by rw [hbytes]; exact hlen)
  | skip => exact Sound.pure hnull

theorem sound_readInlineScalar (ty : ScalarType) (mode : DecodeMode) :
    Sound IsCorrupt (readInlineScalar ty mode) InlineFits := by
  have hint : ∀ {ty : ScalarType} {f : ℤ → Value}, (∀ n, InlineFits (f n)) →
      Sound IsCorrupt (do let n ← readInt ty; pure (f n) : Cursor Value) InlineFits := by
    intro ty f hf
    have hread : Sound IsCorrupt (readInt ty) fun _ => True :=
      (sound_readBe _).bind fun u _ => Sound.pure trivial
    exact hread.bind fun n _ => Sound.pure (hf n)
  have hsigned : ∀ w, Sound IsCorrupt (readSigned w) fun _ => True :=
    fun w => (sound_readBe w).bind fun n _ => Sound.pure trivial
  cases ty with
  | text =>
    refine sound_readString mode trivial fun s hs => ?_
    exact (sound_fromUtf8 s _).bind fun t ht => Sound.pure (ht ▸ hs)
  | json =>
    refine sound_readString mode trivial fun s hs => ?_
    exact (sound_fromUtf8 s _).bind fun t ht => Sound.pure (ht ▸ hs)
  | bytea => exact sound_readString mode trivial fun s hs => Sound.pure hs
  | bool =>
    refine sound_readU8.bind fun b _ => ?_
    split
    · exact Sound.pure trivial
    split
    · exact Sound.pure trivial
    · exact Sound.throw (isCorrupt _)
  | decimal =>
    refine (sound_decodeDecimalBody mode).mono fun v hv => ?_
    rcases hv with rfl | ⟨d, rfl⟩ <;> trivial
  | jsonb =>
    refine (sound_decodeJsonbBody mode).bind fun node _ => ?_
    cases mode <;> exact Sound.pure trivial
  | jsonPath => exact Sound.throw (isCorrupt _)
  | uuid => exact (sound_take 16).bind fun b _ => Sound.pure trivial
  | float64 => exact (sound_readBe 8).bind fun b _ => Sound.pure trivial
  | float32 => exact (sound_readBe 4).bind fun b _ => Sound.pure trivial
  | interval =>
    refine (hsigned 4).bind fun _ _ => (hsigned 4).bind fun _ _ => ?_
    exact (hsigned 8).bind fun _ _ => Sound.pure trivial
  | _ => exact hint fun _ => trivial

variable {inner : Cursor Value}

theorem sound_readRangeBound (h : Sound IsCorrupt inner InlineFits) (mode : DecodeMode) (infinite : Bool) :
    Sound IsCorrupt (readRangeBound inner mode infinite) fun _ => True := by
  unfold readRangeBound
  split
  · exact Sound.pure trivial
  · exact h.bind fun v _ => Sound.pure trivial

theorem sound_readRangeBodyOver (h : Sound IsCorrupt inner InlineFits)
    (mode : DecodeMode) : Sound IsCorrupt (readRangeBodyOver inner mode) InlineFits := by
  refine sound_readU8.bind fun flags _ => ?_
  split
  · exact Sound.throw (isCorrupt _)
  split
  · cases mode <;> exact Sound.pure trivial
  · refine (sound_readRangeBound h mode _).bind fun lower _ => ?_
    refine (sound_readRangeBound h mode _).bind fun upper _ => ?_
    cases mode with
    | skip => exact Sound.pure trivial
    | construct =>
      rw [DecodeMode.constructs_construct, if_pos rfl]
      split
      · exact Sound.throw (isCorrupt _)
      · exact Sound.pure trivial

/-- A bitmap has a bit for every place below eight times its length. -/
theorem sound_readSlot (h : Sound IsCorrupt inner InlineFits)
    {bitmap : Bytes} {i : ℕ} (hi : i / 8 < bitmap.length) :
    Sound IsCorrupt (readSlot inner bitmap i) InlineFits := by
  have hbit : Sound IsCorrupt (ofExcept (nullBit bitmap i)) fun _ => True := by
    intro buf
    rw [nullBit, List.getElem?_eq_getElem hi]
    exact ⟨List.suffix_refl buf, trivial, fun _ => rfl⟩
  refine hbit.bind fun null _ => ?_
  cases null
  · exact h
  · exact Sound.pure trivial

theorem sound_readDims (ndim n : ℕ) : Sound IsCorrupt (readDims ndim n) fun _ => True := by
  induction ndim generalizing n with
  | zero => exact Sound.pure trivial
  | succ ndim ih =>
    have hsigned : Sound IsCorrupt (readSigned 4) fun _ => True :=
      (sound_readBe 4).bind fun n _ => Sound.pure trivial
    refine (sound_readBe 4).bind fun len _ => hsigned.bind fun lb _ => ?_
    dsimp only
    split
    · exact Sound.throw (isCorrupt _)
    split
    · exact Sound.throw (isCorrupt _)
    · exact (ih _).bind fun _ _ => Sound.pure trivial

theorem sound_readArrayBodyOver (h : Sound IsCorrupt inner InlineFits)
    (mode : DecodeMode) : Sound IsCorrupt (readArrayBodyOver inner mode) InlineFits := by
  refine sound_readU8.bind fun ndim _ => sound_readU8.bind fun flags _ => ?_
  split
  · exact Sound.throw (isCorrupt _)
  split
  · cases mode <;> exact Sound.pure trivial
  split
  · exact Sound.throw (isCorrupt _)
  · refine (sound_readDims _ _).bind fun p _ => ?_
    obtain ⟨dims, n⟩ := p
    simp only
    have hbitmap : Sound IsCorrupt (if flags &&& 0x01 != 0 then take ((n + 7) / 8) else pure [])
        fun s => (flags &&& 0x01 != 0) = true → s.length = (n + 7) / 8 := by
      cases flags &&& 0x01 != 0
      · exact Sound.pure fun h => by cases h
      · exact (sound_take _).mono fun s hs _ => hs
    refine hbitmap.bind fun bitmap hlen => ?_
    have hslot : ∀ i ∈ List.range n, Sound IsCorrupt
        (if flags &&& 0x01 != 0 then readSlot inner bitmap i else inner) InlineFits := by
      intro i hi
      have hi := List.mem_range.mp hi
      split
      · rename_i hflag
        exact sound_readSlot h (by rw [hlen hflag]; omega)
      · exact h
    refine (Sound.each hslot).bind fun elements hel => ?_
    cases mode with
    | skip => exact Sound.pure trivial
    | construct => exact Sound.pure (allFit_iff.mpr hel.2)

mutual

/-- On any bytes a body is read or is corrupt. -/
theorem sound_readInlineBody (mode : DecodeMode) (ct : ColType) :
    Sound IsCorrupt (readInlineBody mode ct) InlineFits := by
  match ct with
  | .scalar s => exact sound_readInlineScalar s mode
  | .composite fields =>
    refine (sound_take _).bind fun bitmap hbitmap => ?_
    refine (sound_readFields mode fields (i := 0) (by rw [hbitmap, Nat.zero_add])).bind fun vals hv => ?_
    cases mode with
    | skip => exact Sound.pure trivial
    | construct => exact Sound.pure (allFit_iff.mpr hv)
  | .array elem => exact sound_readArrayBodyOver (sound_readInlineBody mode elem) mode
  | .range elem => exact sound_readRangeBodyOver (sound_readInlineBody mode elem) mode

theorem sound_readFields (mode : DecodeMode) (fields : List ColType) {bitmap : Bytes} {i : ℕ}
    (hlen : bitmap.length = (i + fields.length + 7) / 8) :
    Sound IsCorrupt (readFields mode bitmap i fields) fun vals => ∀ v ∈ vals, InlineFits v := by
  match fields with
  | [] => exact Sound.pure fun _ h => by cases h
  | f :: fields =>
    rw [List.length_cons] at hlen
    refine (sound_readSlot (sound_readInlineBody mode f) (by omega)).bind fun v hv => ?_
    refine (sound_readFields mode fields (by rw [hlen]; congr 1; omega)).bind fun vals hvals => ?_
    exact Sound.pure (List.forall_mem_cons.mpr ⟨hv, hvals⟩)

end

/-- A builder that takes nothing. -/
def TakesNothing {α : Type} (r : Cursor α) : Prop := ∀ buf v rest, r buf = .ok (v, rest) → rest = buf

theorem takesNothing_utf8 {f : Bytes → Value} (s : Bytes) (message : String) :
    TakesNothing (do let t ← fromUtf8 s message; pure (f t) : Cursor Value) := by
  intro buf v rest h
  rw [fromUtf8] at h
  split at h
  · cases h
    rfl
  · cases h

theorem inStep_readString {build : Bytes → Cursor Value} (h : ∀ s, TakesNothing (build s)) :
    InStep fun mode => readString mode build := by
  refine (Lockstep.refl readU16).bind fun len _ hlen => ?_
  subst hlen
  refine (Lockstep.refl (take len)).bind fun bytes _ hbytes => ?_
  intro buf v rest hv
  rw [h bytes buf v rest hv]
  exact ⟨.null, rfl, trivial⟩

theorem inStep_same {α : Type} (r : Cursor α) : InStep fun _ => r :=
  (Lockstep.refl r).mono fun _ _ _ => trivial

theorem inStep_readInlineScalar (ty : ScalarType) : InStep (readInlineScalar ty) := by
  cases ty with
  | text => exact inStep_readString fun s => takesNothing_utf8 s _
  | json => exact inStep_readString fun s => takesNothing_utf8 s _
  | bytea =>
    exact inStep_readString fun s buf v rest h => by
      cases h
      rfl
  | decimal => exact lockstep_decodeDecimalBody
  | jsonb => exact inStep_decodeJsonbBody.bind fun _ _ _ => Lockstep.pure trivial
  | _ => exact inStep_same _

variable {r s : Cursor Value}

theorem inStep_readRangeBound (h : Lockstep (fun _ _ => True) r s) (infinite : Bool) :
    Lockstep (fun _ _ => True) (readRangeBound r .construct infinite)
      (readRangeBound s .skip infinite) := by
  unfold readRangeBound
  split
  · exact Lockstep.pure trivial
  · exact h.bind fun _ _ _ => Lockstep.pure trivial

theorem inStep_readRangeBodyOver (h : Lockstep (fun _ _ => True) r s) :
    Lockstep (fun _ _ => True) (readRangeBodyOver r .construct) (readRangeBodyOver s .skip) := by
  refine (Lockstep.refl readU8).bind fun flags _ hflags => ?_
  subst hflags
  split
  · exact Lockstep.throw_left
  split
  · exact Lockstep.pure trivial
  · refine (inStep_readRangeBound h _).bind fun lower _ _ => ?_
    refine (inStep_readRangeBound h _).bind fun upper _ _ => ?_
    rw [DecodeMode.constructs_construct, if_pos rfl]
    split
    · exact Lockstep.throw_left
    · exact Lockstep.pure trivial

theorem inStep_readSlot (h : Lockstep (fun _ _ => True) r s) (bitmap : Bytes)
    (i : ℕ) : Lockstep (fun _ _ => True) (readSlot r bitmap i) (readSlot s bitmap i) := by
  refine (Lockstep.refl _).bind fun null _ hnull => ?_
  subst hnull
  cases null
  · exact h
  · exact Lockstep.pure trivial

theorem inStep_readArrayBodyOver (h : Lockstep (fun _ _ => True) r s) :
    Lockstep (fun _ _ => True) (readArrayBodyOver r .construct) (readArrayBodyOver s .skip) := by
  refine (Lockstep.refl readU8).bind fun ndim _ hndim => ?_
  subst hndim
  refine (Lockstep.refl readU8).bind fun flags _ hflags => ?_
  subst hflags
  split
  · exact Lockstep.throw_left
  split
  · exact Lockstep.pure trivial
  split
  · exact Lockstep.throw_left
  · refine (Lockstep.refl _).bind fun p _ hp => ?_
    subst hp
    refine (Lockstep.refl _).bind fun bitmap _ hbitmap => ?_
    subst hbitmap
    refine (Lockstep.each (R := fun _ _ => True) fun i _ => ?_).bind fun _ _ _ => Lockstep.pure trivial
    split
    · exact inStep_readSlot h bitmap i
    · exact h

mutual

/-- Skipping a body takes the bytes that building its value takes. -/
theorem inStep_readInlineBody (ct : ColType) : InStep fun mode => readInlineBody mode ct := by
  match ct with
  | .scalar s => exact inStep_readInlineScalar s
  | .composite fields =>
    refine (Lockstep.refl _).bind fun bitmap _ hbitmap => ?_
    subst hbitmap
    exact (inStep_readFields fields bitmap 0).bind fun _ _ _ => Lockstep.pure trivial
  | .array elem => exact inStep_readArrayBodyOver (inStep_readInlineBody elem)
  | .range elem => exact inStep_readRangeBodyOver (inStep_readInlineBody elem)

theorem inStep_readFields (fields : List ColType) (bitmap : Bytes) (i : ℕ) :
    InStep fun mode => readFields mode bitmap i fields := by
  match fields with
  | [] => exact Lockstep.pure trivial
  | f :: fields =>
    refine (inStep_readSlot (inStep_readInlineBody f) bitmap i).bind fun _ _ _ => ?_
    exact (inStep_readFields fields bitmap (i + 1)).bind fun _ _ _ => Lockstep.pure trivial

end

end Jed.Codec
