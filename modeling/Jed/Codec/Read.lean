import Jed.Key.Encode
import Jed.Lib.Reader

/-!
# Cursor reads

The bounds-checked big-endian readers over a payload cursor (`format.rs:7988-8012`), the cursor being
the bytes not yet read, and the null bitmaps of containers.
-/

namespace Jed.Codec

open Readers Positional Key

/-- A cursor over stored bytes. -/
abbrev Cursor (α : Type) := Reader Failure UInt8 α

/-- The failure of corrupt bytes, `XX001`; a panic is none. -/
def IsCorrupt (e : Failure) : Prop := ∃ message, e = dataCorrupted message

/-- `take` (`format.rs:7990-7998`). -/
def take (n : Nat) : Cursor Bytes := fun buf =>
  if buf.length < n then .error (dataCorrupted "unexpected end of page data")
  else .ok (buf.take n, buf.drop n)

/-- `from_be_bytes`. -/
def beNat (s : Bytes) : Nat := s.foldl (fun n b => n * 256 + b.toNat) 0

/-- `read_u8`. -/
def readU8 : Cursor UInt8 := do
  match ← take 1 with
  | b :: _ => pure b
  | [] => throw .panic

/-- `read_u16`, `read_u32`, `read_u64`: a number of `w` bytes. -/
def readBe (w : Nat) : Cursor Nat := do
  let s ← take w
  pure (beNat s)

def readU16 : Cursor Nat := readBe 2
def readU32 : Cursor Nat := readBe 4

/-- An `n`-bit number as a signed one, in two's complement. -/
def toSigned (bits n : Nat) : Int := if n < 2 ^ (bits - 1) then n else n - 2 ^ bits

/-- `String::from_utf8`, or the message of its failure. -/
def fromUtf8 (s : Bytes) (message : String) : Cursor Bytes :=
  if ByteArray.validateUTF8 ⟨s.toArray⟩ then pure s else throw (dataCorrupted message)

theorem beNat_append (s : Bytes) (b : UInt8) : beNat (s ++ [b]) = beNat s * 256 + b.toNat := by
  rw [beNat, List.foldl_append]
  rfl

theorem beNat_beBytes (w n : ℕ) : beNat (beBytes w n) = n % 256 ^ w := by
  have hfold : ∀ acc, (beBytes w n).foldl (fun n b => n * 256 + b.toNat) acc
      = acc * 256 ^ w + n % 256 ^ w := by
    induction w with
    | zero => simp [beBytes, digits, Nat.mod_one]
    | succ w ih =>
      intro acc
      have hdigit : (UInt8.ofNat (n / 256 ^ w % 256)).toNat = n / 256 ^ w % 256 := by
        rw [UInt8.toNat_ofNat']
        exact Nat.mod_mod _ _
      have hsplit : n % 256 ^ (w + 1) = n % 256 ^ w + 256 ^ w * (n / 256 ^ w % 256) := by
        rw [pow_succ]
        exact Nat.mod_mul
      have := ih (acc * 256 + n / 256 ^ w % 256)
      unfold beBytes at this ⊢
      rw [digits, List.map_cons, List.foldl_cons, hdigit, this, hsplit, pow_succ]
      ring
  have := hfold 0
  rwa [Nat.zero_mul, Nat.zero_add] at this

theorem beBytes_length (w n : ℕ) : (beBytes w n).length = w := by simp [beBytes]

theorem beNat_lt (s : Bytes) : beNat s < 256 ^ s.length := by
  induction s using List.reverseRecOn with
  | nil => simp [beNat]
  | append_singleton s b ih =>
    have hb : b.toNat < 256 := b.toNat_lt
    rw [beNat_append, List.length_append, List.length_singleton, pow_succ]
    omega

theorem reads_take (s : Bytes) : Reads (take s.length) s s := by
  intro rest
  simp [take]

theorem reads_take_of {n : ℕ} {s : Bytes} (h : s.length = n) : Reads (take n) s s :=
  h ▸ reads_take s

theorem reads_readU8 (b : UInt8) : Reads readU8 [b] b := by
  have h : Reads (take 1) [b] [b] := reads_take [b]
  exact h.bind (Reads.pure b)

theorem reads_readBe {w n : ℕ} (h : n < 256 ^ w) : Reads (readBe w) (beBytes w n) n := by
  have hb := beNat_beBytes w n
  rw [Nat.mod_eq_of_lt h] at hb
  have := Reads.map (f := beNat) (reads_take_of (beBytes_length w n))
  rwa [hb] at this

theorem reads_fromUtf8 {s : Bytes} (h : ByteArray.validateUTF8 ⟨s.toArray⟩) (message : String) :
    Reads (fromUtf8 s message) [] s := by
  rw [fromUtf8, if_pos h]
  exact Reads.pure s

theorem isCorrupt (message : String) : IsCorrupt (dataCorrupted message) := ⟨message, rfl⟩

theorem sound_take (n : ℕ) : Sound IsCorrupt (take n) fun s => s.length = n := by
  intro buf
  unfold take
  by_cases h : buf.length < n
  · rw [if_pos h]
    exact isCorrupt _
  · rw [if_neg h]
    have hn : n ≤ buf.length := not_lt.mp h
    refine ⟨List.drop_suffix n buf, List.length_take_of_le hn, fun more => ?_⟩
    have hlonger : ¬(buf ++ more).length < n := by
      rw [List.length_append]
      omega
    rw [if_neg hlonger, List.take_append_of_le_length hn, List.drop_append_of_le_length hn]

theorem sound_readU8 : Sound IsCorrupt readU8 fun _ => True := by
  refine (sound_take 1).bind fun s hs => ?_
  cases s with
  | nil => cases hs
  | cons b s => exact Sound.pure trivial

theorem sound_readBe (w : ℕ) : Sound IsCorrupt (readBe w) fun n => n < 256 ^ w :=
  (sound_take w).bind fun s hs => Sound.pure (hs ▸ beNat_lt s)

theorem sound_fromUtf8 (s : Bytes) (message : String) :
    Sound IsCorrupt (fromUtf8 s message) fun t => t = s := by
  unfold fromUtf8
  split
  · exact Sound.pure rfl
  · exact Sound.throw (isCorrupt _)

/-- The mask of a field in its byte, the first field being the high bit. -/
def bitMask (i : Nat) : UInt8 := 0x80 >>> UInt8.ofNat (i % 8)

/-- The bitmap with a field's bit set. -/
def setBit (bitmap : Bytes) (i : Nat) : Bytes := bitmap.modify (i / 8) (· ||| bitMask i)

/-- A field's bit, an index past the bitmap being a panic. -/
def nullBit (bitmap : Bytes) (i : Nat) : Except Failure Bool :=
  match bitmap[i / 8]? with
  | some b => .ok (b &&& bitMask i != 0)
  | none => .error .panic

/-- The bitmap of a list of fields, of `ceil(n / 8)` bytes. -/
def nullBitmap (nulls : List Bool) : Bytes :=
  nulls.zipIdx.foldl (fun bitmap p => if p.1 then setBit bitmap p.2 else bitmap)
    (List.replicate ((nulls.length + 7) / 8) 0)

theorem setBit_length (bitmap : Bytes) (i : ℕ) : (setBit bitmap i).length = bitmap.length := by
  simp [setBit]

theorem bitMask_and_self (i : ℕ) : bitMask i &&& bitMask i ≠ 0 := by
  have hall : ∀ k : Fin 8, (0x80 : UInt8) >>> UInt8.ofNat k &&& 0x80 >>> UInt8.ofNat k ≠ 0 := by
    decide
  exact hall ⟨i % 8, Nat.mod_lt i (by decide)⟩

theorem bitMask_and_ne {i j : ℕ} (h : i % 8 ≠ j % 8) : bitMask i &&& bitMask j = 0 := by
  have hall : ∀ k l : Fin 8, k ≠ l →
      (0x80 : UInt8) >>> UInt8.ofNat k &&& 0x80 >>> UInt8.ofNat l = 0 := by decide
  exact hall ⟨i % 8, Nat.mod_lt i (by decide)⟩ ⟨j % 8, Nat.mod_lt j (by decide)⟩ fun he =>
    h (congrArg Fin.val he)

theorem or_and_mask (b m n : UInt8) : (b ||| m) &&& n = b &&& n ||| m &&& n := by
  apply UInt8.toBitVec_inj.mp
  simp only [UInt8.toBitVec_and, UInt8.toBitVec_or]
  ext k hk
  simp [Bool.and_or_distrib_right]

theorem or_ne_zero_left {a b : UInt8} (h : b ≠ 0) : a ||| b ≠ 0 := by
  intro h0
  apply h
  apply UInt8.toBitVec_inj.mp
  have h0 := congrArg UInt8.toBitVec h0
  rw [UInt8.toBitVec_or] at h0
  ext k hk
  have := congrArg (fun x => BitVec.getLsbD x k) h0
  simp at this ⊢
  exact this.2

/-- Setting a bit sets that bit. -/
theorem nullBit_setBit {bitmap : Bytes} {i j : ℕ} {x : Bool} (hj : nullBit bitmap j = .ok x) :
    nullBit (setBit bitmap i) j = .ok (decide (i = j) || x) := by
  unfold nullBit at hj
  cases hb : bitmap[j / 8]? with
  | none =>
    rw [hb] at hj
    cases hj
  | some b =>
    rw [hb] at hj
    obtain rfl : (b &&& bitMask j != 0) = x := Except.ok.inj hj
    unfold nullBit setBit
    rw [List.getElem?_modify, hb]
    by_cases hbyte : i / 8 = j / 8
    · simp only [hbyte, if_true, Option.map_eq_map, Option.map_some, or_and_mask]
      by_cases hij : i = j
      · subst hij
        rw [decide_eq_true rfl, Bool.true_or]
        exact congrArg Except.ok (bne_iff_ne.mpr (or_ne_zero_left (bitMask_and_self i)))
      · have hmod : i % 8 ≠ j % 8 := by omega
        rw [decide_eq_false hij, Bool.false_or, bitMask_and_ne hmod, UInt8.or_zero]
    · have hij : i ≠ j := fun h => hbyte (congrArg (· / 8) h)
      simp only [hbyte, if_false, Option.map_eq_map, Option.map_some, decide_eq_false hij,
        Bool.false_or]

/-- The bits a list of fields sets. -/
theorem nullBit_foldl (fields : List (Bool × ℕ)) {bitmap : Bytes} {j : ℕ} {x : Bool}
    (hj : nullBit bitmap j = .ok x) :
    nullBit (fields.foldl (fun bitmap p => if p.1 then setBit bitmap p.2 else bitmap) bitmap) j
      = .ok (fields.any (fun p => p.1 && p.2 = j) || x) := by
  induction fields generalizing bitmap x with
  | nil => exact hj
  | cons p fields ih =>
    obtain ⟨b, i⟩ := p
    rw [List.foldl_cons, List.any_cons]
    cases b
    · exact ih hj
    · rw [if_pos rfl, ih (nullBit_setBit (i := i) hj), Bool.true_and]
      congr 1
      rw [Bool.or_comm (decide (i = j)), Bool.or_assoc, Bool.or_comm x, ← Bool.or_assoc,
        ← Bool.or_assoc, Bool.or_comm (decide (i = j))]

theorem nullBitmap_length (nulls : List Bool) :
    (nullBitmap nulls).length = (nulls.length + 7) / 8 := by
  have hfold : ∀ (fields : List (Bool × ℕ)) (bitmap : Bytes),
      (fields.foldl (fun bitmap p => if p.1 then setBit bitmap p.2 else bitmap) bitmap).length
        = bitmap.length := by
    intro fields
    induction fields with
    | nil => exact fun _ => rfl
    | cons p fields ih =>
      intro bitmap
      rw [List.foldl_cons, ih]
      split
      · exact setBit_length _ _
      · rfl
  rw [nullBitmap, hfold, List.length_replicate]

/-- A bitmap says of each field whether it is null. -/
theorem nullBit_nullBitmap {nulls : List Bool} {i : ℕ} {b : Bool} (h : nulls[i]? = some b) :
    nullBit (nullBitmap nulls) i = .ok b := by
  have hi : i < nulls.length := (List.getElem?_eq_some_iff.mp h).1
  have hzero : nullBit (List.replicate ((nulls.length + 7) / 8) 0) i = .ok false := by
    rw [nullBit, List.getElem?_replicate, if_pos (by omega)]
    exact congrArg Except.ok (by simp)
  rw [nullBitmap, nullBit_foldl _ hzero, Bool.or_false]
  congr 1
  cases b
  · rw [List.any_eq_false]
    rintro ⟨c, k⟩ hmem
    have hk := List.mem_zipIdx_iff_getElem?.mp hmem
    rintro hp
    obtain ⟨rfl, rfl⟩ : c = true ∧ k = i := by simpa using hp
    rw [h] at hk
    cases hk
  · rw [List.any_eq_true]
    exact ⟨(true, i), List.mem_zipIdx_iff_getElem?.mpr h, by simp⟩

end Jed.Codec
