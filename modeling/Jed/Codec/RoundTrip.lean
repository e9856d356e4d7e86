import Jed.Codec.Inline
import Jed.Key.Containers

/-!
# Bodies come back

A value of its column type is read back from its body, one NaN standing for all, exactly when the
strings in it are counted in 16 bits.
-/

namespace Jed.Codec

open Readers Key Ranges Positional

/-- The values of a scalar type, strings being UTF-8 where their type says so. -/
inductive StoresScalar : ScalarType → Value → Prop where
  | keyed {ty : ScalarType} {v : Value} (h : Holds ty v)
      (hutf8 : ∀ s, v = .text s → ByteArray.validateUTF8 ⟨s.toArray⟩) : StoresScalar ty v
  | json {s : Bytes} (h : ByteArray.validateUTF8 ⟨s.toArray⟩) : StoresScalar .json (.json s)
  | jsonb {n : JsonNode} (h : NodeOk MAX_JSON_DEPTH n) : StoresScalar .jsonb (.jsonb n)

/-- The shape of an array: dimensions that multiply to its elements, each with its bounds in 32
    bits. The empty array has none. -/
structure ArrayShape (dims : List ℕ) (lbounds : List ℤ) (count : ℕ) : Prop where
  length : dims.length = lbounds.length
  empty : count = 0 → dims = []
  ndim : count ≠ 0 → 1 ≤ dims.length ∧ dims.length ≤ 6
  prod : count ≠ 0 → dims.prod = count
  bounded : count < 2 ^ 64
  dims : ∀ d ∈ dims.zip lbounds, d.1 < 2 ^ 32 ∧ i32Min ≤ d.2 ∧ d.2 ≤ i32Max ∧
    i32Min ≤ d.2 + d.1 - 1 ∧ d.2 + d.1 - 1 ≤ i32Max

/-- A range as it is stored: the empty one, or bounds of its element type in order. -/
structure RangeStored (elem : ScalarType) (r : Range) : Prop where
  empty : r.empty = true → r = .emptyRange
  bounds : r.empty = false → BoundHolds elem r.lower ∧ BoundHolds elem r.upper
  ordered : r.empty = false → outOfOrder r.lower r.upper r.lowerInc r.upperInc = false

mutual

/-- The values a column of a type stores, NULL apart. -/
def Storable (ct : ColType) (v : Value) : Prop :=
  match ct, v with
  | .scalar s, v => StoresScalar s v
  | .array elem, .array dims lbounds elements =>
    ArrayShape dims lbounds elements.length ∧ ∀ e ∈ elements, e ≠ .null → Storable elem e
  | .range (.scalar s), .range r => RangeElem s ∧ RangeStored s r
  | .composite fields, .composite vals => FieldsStorable fields vals
  | _, _ => False

/-- A value or a NULL for every field. -/
def FieldsStorable (fields : List ColType) (vals : List Value) : Prop :=
  match fields, vals with
  | [], [] => True
  | f :: fields, v :: vals => (v ≠ .null → Storable f v) ∧ FieldsStorable fields vals
  | _, _ => False

end

mutual

/-- The strings of a value's body are counted in 16 bits, wherever they are in it. -/
def InlineFits : Value → Prop
  | .text s | .bytea s | .json s => s.length < 2 ^ 16
  | .composite vals => AllFit vals
  | .array _ _ elements => AllFit elements
  | _ => True

def AllFit : List Value → Prop
  | [] => True
  | v :: vals => InlineFits v ∧ AllFit vals

end

theorem allFit_iff {vals : List Value} : AllFit vals ↔ ∀ v ∈ vals, InlineFits v := by
  induction vals with
  | nil => simp [AllFit]
  | cons v vals ih => simp [AllFit, ih]

mutual

/-- A value with one NaN for every NaN in it: what the engine takes for the same value. -/
def oneNaN : Value → Value
  | .float32 x => .float32 (storedBits binary32 x)
  | .float64 x => .float64 (storedBits binary64 x)
  | .composite vals => .composite (allOneNaN vals)
  | .array dims lbounds elements => .array dims lbounds (allOneNaN elements)
  | v => v

def allOneNaN : List Value → List Value
  | [] => []
  | v :: vals => oneNaN v :: allOneNaN vals

end

theorem allOneNaN_eq (vals : List Value) : allOneNaN vals = vals.map oneNaN := by
  induction vals with
  | nil => rfl
  | cons v vals ih => rw [allOneNaN, List.map_cons, ih]

variable {v : Value} {s : Bytes}

theorem reads_readString (h : s.length < 2 ^ 16) {build : Bytes → Cursor Value}
    (hbuild : Reads (build s) [] v) :
    Reads (readString .construct build) (encodeString s) v := by
  refine (reads_readBe h).bind ((reads_take s).check ?_)
  rw [DecodeMode.constructs_construct, if_pos rfl]
  exact hbuild

variable {ty : ScalarType} {n : ℤ}

theorem reads_readInt (hw : 0 < widthBytes ty)
    (hn : -2 ^ (widthBytes ty * 8 - 1) ≤ n ∧ n < 2 ^ (widthBytes ty * 8 - 1)) :
    Reads (readInt ty) (encodeInt ty n) n := by
  have hbytes := pow_bytes hw
  have hbound : (2 : ℤ) * 2 ^ (widthBytes ty * 8 - 1) ≤ 2 ^ 128 := by
    rw [← pow_succ']
    exact pow_le_pow_right₀ (by norm_num) (by cases ty <;> decide)
  have hmod : (n + 2 ^ (widthBytes ty * 8 - 1)) % 2 ^ 128 = n + 2 ^ (widthBytes ty * 8 - 1) :=
    Int.emod_eq_of_lt (by omega) (by omega)
  have hlt : (n + 2 ^ (widthBytes ty * 8 - 1)).toNat < 256 ^ widthBytes ty := by
    zify
    rw [Int.toNat_of_nonneg (by omega)]
    omega
  have hback : ((n + 2 ^ (widthBytes ty * 8 - 1)).toNat : ℤ) - 2 ^ (widthBytes ty * 8 - 1) = n := by
    rw [Int.toNat_of_nonneg (by omega)]
    omega
  have := (reads_readBe hlt).map (f := fun u : ℕ => (u : ℤ) - 2 ^ (widthBytes ty * 8 - 1))
  rw [hback] at this
  unfold readInt
  simp only [encodeInt, hmod]
  exact this

theorem reads_readSigned {w : ℕ} (hw : 0 < w) (hn : -2 ^ (8 * w - 1) ≤ n ∧ n < 2 ^ (8 * w - 1)) :
    Reads (readSigned w) (signedBytes w n) n := by
  have hpow : (256 : ℤ) ^ w = 2 * 2 ^ (8 * w - 1) := by
    rw [← pow_succ', show 8 * w - 1 + 1 = 8 * w by omega, pow_mul]
    norm_num
  have hpow' : (2 : ℤ) ^ (8 * w) = 256 ^ w := by rw [pow_mul]; norm_num
  have hnat : ((2 ^ (8 * w - 1) : ℕ) : ℤ) = 2 ^ (8 * w - 1) := by push_cast; rfl
  have hlt : (n % 256 ^ w).toNat < 256 ^ w := by
    have h0 := Int.emod_nonneg n (show (256 : ℤ) ^ w ≠ 0 by positivity)
    have h1 := Int.emod_lt_of_pos n (show (0 : ℤ) < 256 ^ w by positivity)
    zify
    rwa [Int.toNat_of_nonneg h0]
  have hback : toSigned (8 * w) (n % 256 ^ w).toNat = n := by
    have hnonneg := Int.emod_nonneg n (show (256 : ℤ) ^ w ≠ 0 by positivity)
    unfold toSigned
    rw [Int.toNat_of_nonneg hnonneg, hpow']
    by_cases hneg : n < 0
    · have hmod : n % 256 ^ w = n + 256 ^ w := by
        rw [← Int.add_emod_right, Int.emod_eq_of_lt (by omega) (by omega)]
      rw [if_neg (by zify; rw [Int.toNat_of_nonneg hnonneg]; omega), hmod]
      omega
    · have hmod : n % 256 ^ w = n := Int.emod_eq_of_lt (by omega) (by omega)
      rw [if_pos (by zify; rw [Int.toNat_of_nonneg hnonneg]; omega), hmod]
  have := (reads_readBe hlt).map (f := toSigned (8 * w))
  rwa [hback] at this

/-- What a value's encoding and its type's reader have to do with each other. -/
def ReadsBack (encode : Value → Except Failure Bytes) (read : Cursor Value) (v : Value) : Prop :=
  ∃ body, encode v = .ok (0x00 :: body) ∧ Reads read body (oneNaN v)

theorem readsBack_scalar (h : StoresScalar ty v) (hfits : InlineFits v) :
    ReadsBack (encodeScalar ty) (readInlineScalar ty .construct) v := by
  cases h with
  | json h =>
    exact ⟨_, rfl, reads_readString hfits ((reads_fromUtf8 h _).map)⟩
  | jsonb h => exact ⟨_, rfl, (reads_decodeJsonbBody h).check (Reads.pure _)⟩
  | keyed h hutf8 =>
    cases h with
    | int16 h => exact ⟨_, rfl, (reads_readInt (by decide) h).map⟩
    | int32 h => exact ⟨_, rfl, (reads_readInt (by decide) h).map⟩
    | int64 h => exact ⟨_, rfl, (reads_readInt (by decide) h).map⟩
    | text s => exact ⟨_, rfl, reads_readString hfits ((reads_fromUtf8 (hutf8 s rfl) _).map)⟩
    | bool b =>
      cases b
      · exact ⟨_, rfl, (reads_readU8 0).check (Reads.pure _)⟩
      · exact ⟨_, rfl, (reads_readU8 1).check (Reads.pure _)⟩
    | decimal h => exact ⟨_, rfl, reads_decodeDecimalBody h⟩
    | bytea b => exact ⟨_, rfl, reads_readString hfits (Reads.pure _)⟩
    | uuid h => exact ⟨_, rfl, (reads_take_of h).map⟩
    | timestamp h => exact ⟨_, rfl, (reads_readInt (by decide) h).map⟩
    | timestamptz h => exact ⟨_, rfl, (reads_readInt (by decide) h).map⟩
    | interval hm hd hs =>
      refine ⟨_, rfl, (reads_readSigned (by decide) hm).bind ?_⟩
      exact (reads_readSigned (by decide) hd).bind ((reads_readSigned (by decide) hs).map)
    | float32 x =>
      have hbits : BitVec.ofNat 32 (storedBits binary32 x).toNat = storedBits binary32 x :=
        (BitVec.ofNat_toNat 32 _).trans (BitVec.setWidth_eq _)
      have := (reads_readBe (w := 4) (storedBits binary32 x).isLt).map (f := fun n =>
        Value.float32 (BitVec.ofNat 32 n))
      rw [hbits] at this
      exact ⟨_, rfl, this⟩
    | float64 x =>
      have hbits : BitVec.ofNat 64 (storedBits binary64 x).toNat = storedBits binary64 x :=
        (BitVec.ofNat_toNat 64 _).trans (BitVec.setWidth_eq _)
      have := (reads_readBe (w := 8) (storedBits binary64 x).isLt).map (f := fun n =>
        Value.float64 (BitVec.ofNat 64 n))
      rw [hbits] at this
      exact ⟨_, rfl, this⟩
    | date h => exact ⟨_, rfl, (reads_readInt (by decide) h).map⟩

theorem rangeFlags_bits (r : Range) :
    rangeFlags r &&& 0xe0 = 0 ∧ rangeFlags r &&& 0x01 = 0 ∧
      (rangeFlags r &&& 0x02 != 0) = r.lower.isNone ∧ (rangeFlags r &&& 0x04 != 0) = r.upper.isNone ∧
      (rangeFlags r &&& 0x08 != 0) = r.lowerInc ∧ (rangeFlags r &&& 0x10 != 0) = r.upperInc := by
  unfold rangeFlags
  cases r.lower.isNone <;> cases r.upper.isNone <;> cases r.lowerInc <;> cases r.upperInc <;>
    decide

theorem oneNaN_eq_of_holds (hty : RangeElem ty) (h : Holds ty v) :
    oneNaN v = v := by
  cases h with
  | float32 x => exact absurd hty (by decide)
  | float64 x => exact absurd hty (by decide)
  | _ => rfl

variable {elem : ScalarType}

/-- A bound comes back. -/
theorem readsBack_elem (helem : RangeElem elem) (h : Holds elem v) :
    ∃ body, encodeScalar elem v = .ok (0x00 :: body) ∧
      Reads (readInlineScalar elem .construct) body v := by
  have htext : ∀ s, v ≠ .text s := by
    rintro s rfl
    cases h
    exact absurd helem (by decide)
  have hfits : InlineFits v := by
    cases h with
    | text => exact absurd rfl (htext _)
    | bytea => exact absurd helem (by decide)
    | _ => trivial
  obtain ⟨body, hbody, hread⟩ := readsBack_scalar (.keyed h fun s hs => absurd hs (htext s)) hfits
  exact ⟨body, hbody, oneNaN_eq_of_holds helem h ▸ hread⟩

/-- One bound, or nothing. -/
theorem reads_readRangeBound (helem : RangeElem elem) {v : Option Value} (h : BoundHolds elem v) :
    ∃ body, concatKeys (fun v => (encodeScalar elem v).map (·.drop 1)) v.toList = .ok body ∧
      Reads (readRangeBound (readInlineScalar elem .construct) .construct v.isNone) body v := by
  cases v with
  | none => exact ⟨[], rfl, Reads.pure none⟩
  | some v =>
    obtain ⟨body, hbody, hread⟩ := readsBack_elem helem (h v rfl)
    refine ⟨body, ?_, hread.map⟩
    simp only [Option.toList_some, concatKeys, hbody]
    show Except.ok (body ++ []) = _
    rw [List.append_nil]

theorem concatKeys_append {α : Type} {enc : α → Except Failure Bytes} {xs ys : List α}
    {t : Bytes} (hs : concatKeys enc xs = .ok s) (ht : concatKeys enc ys = .ok t) :
    concatKeys enc (xs ++ ys) = .ok (s ++ t) := by
  induction xs generalizing s with
  | nil =>
    cases hs
    exact ht
  | cons x xs ih =>
    rw [concatKeys] at hs
    cases hx : enc x with
    | error e =>
      rw [hx] at hs
      cases hs
    | ok u =>
      rw [hx] at hs
      cases hrest : concatKeys enc xs with
      | error e =>
        rw [hrest] at hs
        cases hs
      | ok v =>
        rw [hrest] at hs
        obtain rfl : u ++ v = s := Except.ok.inj hs
        rw [List.cons_append, concatKeys, hx, ih hrest, List.append_assoc]
        rfl

/-- A range comes back. -/
theorem readsBack_range (helem : RangeElem elem) {r : Range} (h : RangeStored elem r) :
    ∃ body, encodeRangeBodyOver (encodeScalar elem) r = .ok body ∧
      Reads (readRangeBodyOver (readInlineScalar elem .construct) .construct) body (.range r) := by
  cases he : r.empty
  · obtain ⟨hlower, hupper⟩ := h.bounds he
    obtain ⟨s, hs, hreads⟩ := reads_readRangeBound helem hlower
    obtain ⟨t, ht, hreadt⟩ := reads_readRangeBound helem hupper
    obtain ⟨hres, hempty, hlb, hub, hli, hui⟩ := rangeFlags_bits r
    refine ⟨rangeFlags r :: (s ++ t), ?_, ?_⟩
    · rw [encodeRangeBodyOver, he, if_neg (by decide), concatKeys_append hs ht]
      rfl
    · refine Reads.bind (b := [_]) (reads_readU8 (rangeFlags r)) ?_
      rw [if_neg (not_not_intro hres), if_neg (not_not_intro hempty)]
      simp only [hlb, hub, hli, hui]
      refine hreads.bind (hreadt.check ?_)
      rw [DecodeMode.constructs_construct, if_pos rfl, if_neg (by rw [h.ordered he]; decide)]
      have hr : (⟨false, r.lower, r.upper, r.lowerInc, r.upperInc⟩ : Range) = r := by
        rw [← he]
      rw [hr]
      exact Reads.pure _
  · refine ⟨[0x01], by rw [encodeRangeBodyOver, he, if_pos rfl], ?_⟩
    rw [h.empty he]
    exact (reads_readU8 0x01).check (Reads.pure _)

theorem isNull_iff : isNull v = true ↔ v = .null := by
  cases v <;> simp [isNull]

variable {encode : Value → Except Failure Bytes} {inner : Cursor Value}

/-- A slot comes back: NULL from its bit alone, a value from its body. -/
theorem readsBack_slot {bitmap : Bytes} {i : ℕ} (hbit : nullBit bitmap i = .ok (isNull v))
    (h : v ≠ .null → ReadsBack encode inner v) :
    ∃ body, bodyOf encode v = .ok body ∧ Reads (readSlot inner bitmap i) body (oneNaN v) := by
  have hslot : ∀ {b : Bytes} {w : Value}, Reads (if isNull v then pure .null else inner) b w →
      Reads (readSlot inner bitmap i) b w := by
    intro b w hr
    refine Reads.bind_nil (v := isNull v) (fun rest => ?_) hr
    rw [ofExcept, hbit]
    rfl
  by_cases hv : v = .null
  · subst hv
    exact ⟨[], rfl, hslot (Reads.pure _)⟩
  · have hnull : isNull v = false := Bool.not_eq_true _ ▸ mt isNull_iff.mp hv
    obtain ⟨body, hbody, hread⟩ := h hv
    refine ⟨body, ?_, hslot ?_⟩
    · rw [bodyOf, hnull, hbody]
      rfl
    · rw [hnull]
      exact hread

theorem reads_readDims {dims : List (ℕ × ℤ)} (hdims : ∀ d ∈ dims, d.1 < 2 ^ 32 ∧ i32Min ≤ d.2 ∧
      d.2 ≤ i32Max ∧ i32Min ≤ d.2 + d.1 - 1 ∧ d.2 + d.1 - 1 ≤ i32Max) :
    ∀ {n : ℕ}, n * (dims.map (·.1)).prod < 2 ^ 64 → (dims.map (·.1)).prod ≠ 0 →
      Reads (readDims dims.length n) (dims.flatMap encodeArrayDim)
        (dims, n * (dims.map (·.1)).prod) := by
  induction dims with
  | nil =>
    intro n _ _
    rw [List.map_nil, List.prod_nil, mul_one]
    exact Reads.pure _
  | cons d dims ih =>
    intro n hn hne
    obtain ⟨len, lb⟩ := d
    obtain ⟨hlen, hlo, hhi, hub0, hub1⟩ := hdims (len, lb) List.mem_cons_self
    rw [List.map_cons, List.prod_cons, ← mul_assoc] at hn
    rw [List.map_cons, List.prod_cons] at hne
    have hrest : (dims.map (·.1)).prod ≠ 0 := right_ne_zero_of_mul hne
    have hprod : n * len < 2 ^ 64 :=
      lt_of_le_of_lt (Nat.le_mul_of_pos_right _ (Nat.pos_of_ne_zero hrest)) hn
    have hok : ¬(i32Max < lb + len - 1 ∨ lb + len - 1 < i32Min) := by
      simp only at hub0 hub1
      omega
    rw [List.length_cons, readDims, List.flatMap_cons, encodeArrayDim, List.append_assoc]
    have hlo : i32Min ≤ lb := hlo
    have hhi : lb ≤ i32Max := hhi
    unfold i32Min at hlo
    unfold i32Max at hhi
    refine (reads_readBe hlen).bind ((reads_readSigned (w := 4) (by decide) ?_).bind ?_)
    · omega
    · rw [if_neg hok, if_neg (not_le.mpr hprod), List.map_cons, List.prod_cons, ← mul_assoc]
      exact (ih (fun d hd => hdims d (List.mem_cons_of_mem _ hd)) hn hrest).map

/-- The elements of an array come back, with its bitmap when it has NULLs. -/
theorem readsBack_elements
    {elements : List Value} (h : ∀ e ∈ elements, e ≠ .null → ReadsBack encode inner e) :
    ∃ bodies, concatKeys (bodyOf encode) elements = .ok bodies ∧
      Reads (readEach (fun i => if elements.any isNull then
          readSlot inner (nullBitmap (elements.map isNull)) i else inner)
        (List.range elements.length)) bodies (elements.map oneNaN) := by
  have hslots : ∀ (is : List ℕ) (vs : List Value), is.length = vs.length →
      (∀ p ∈ is.zip vs, (elements.map isNull)[p.1]? = some (isNull p.2)) →
      (∀ v ∈ vs, v ∈ elements) →
      ∃ bodies, concatKeys (bodyOf encode) vs = .ok bodies ∧
        Reads (readEach (fun i => if elements.any isNull then
            readSlot inner (nullBitmap (elements.map isNull)) i else inner) is)
          bodies (vs.map oneNaN) := by
    intro is
    induction is with
    | nil =>
      intro vs hlen _ _
      obtain rfl : vs = [] := List.eq_nil_of_length_eq_zero hlen.symm
      exact ⟨[], rfl, Reads.pure []⟩
    | cons i is ih =>
      intro vs hlen hbits hmem
      cases vs with
      | nil => cases hlen
      | cons v vs =>
        obtain ⟨rest, hrest, hreads⟩ := ih vs (Nat.succ.inj hlen)
          (fun p hp => hbits p (List.mem_cons_of_mem _ hp))
          fun w hw => hmem w (List.mem_cons_of_mem _ hw)
        have hv := h v (hmem v List.mem_cons_self)
        have hhead : ∃ body, bodyOf encode v = .ok body ∧
            Reads (if elements.any isNull then
              readSlot inner (nullBitmap (elements.map isNull)) i else inner) body (oneNaN v) := by
          cases hany : elements.any isNull
          · have hnull : isNull v = false :=
              Bool.not_eq_true _ ▸ List.any_eq_false.mp hany v (hmem v List.mem_cons_self)
            obtain ⟨body, hbody, hread⟩ := hv fun hn => by
              rw [hn] at hnull
              cases hnull
            refine ⟨body, ?_, hread⟩
            rw [bodyOf, hnull, hbody]
            rfl
          · exact readsBack_slot (nullBit_nullBitmap (hbits (i, v) List.mem_cons_self)) hv
        obtain ⟨body, hbody, hread⟩ := hhead
        refine ⟨body ++ rest, ?_, hread.bind hreads.map⟩
        rw [concatKeys, hbody, hrest]
        rfl
  refine hslots _ elements List.length_range ?_ fun v hv => hv
  intro p hp
  obtain ⟨k, hk⟩ := List.mem_iff_getElem?.mp hp
  rw [List.getElem?_zip_eq_some] at hk
  obtain ⟨hi, hv⟩ := hk
  have hpk : p.1 = k := by
    rw [List.getElem?_range] at hi
    · exact (Option.some.inj hi).symm
    · exact (List.getElem?_eq_some_iff.mp hv).1
  rw [List.getElem?_map, hpk, hv]
  rfl

/-- An array comes back when its elements do. -/
theorem readsBack_array {dims : List ℕ} {lbounds : List ℤ} {elements : List Value}
    (hshape : ArrayShape dims lbounds elements.length)
    (h : ∀ e ∈ elements, e ≠ .null → ReadsBack encode inner e) :
    ∃ body, encodeArrayBodyOver encode dims lbounds elements = .ok body ∧
      Reads (readArrayBodyOver inner .construct) body
        (.array dims lbounds (elements.map oneNaN)) := by
  cases hel : elements with
  | nil =>
    rw [hel] at hshape
    have hdims := hshape.empty rfl
    have hlbounds : lbounds = [] := by
      have hlen := hshape.length
      rw [hdims] at hlen
      exact List.eq_nil_of_length_eq_zero hlen.symm
    subst hdims hlbounds
    exact ⟨[0, 0], rfl, Reads.bind (b := [_]) (reads_readU8 0)
      ((reads_readU8 0).check (Reads.pure _))⟩
  | cons e es =>
    rw [← hel]
    have hne : elements.length ≠ 0 := by rw [hel]; exact Nat.succ_ne_zero _
    obtain ⟨bodies, hbodies, hreads⟩ := readsBack_elements h
    obtain ⟨hndim1, hndim6⟩ := hshape.ndim hne
    have hfst : (dims.zip lbounds).map (·.1) = dims :=
      List.map_fst_zip (le_of_eq hshape.length)
    have hsnd : (dims.zip lbounds).map (·.2) = lbounds :=
      List.map_snd_zip (le_of_eq hshape.length.symm)
    have hcount : 1 * ((dims.zip lbounds).map (·.1)).prod = elements.length := by
      rw [hfst, hshape.prod hne, one_mul]
    have hziplen : (dims.zip lbounds).length = dims.length := by
      rw [List.length_zip, ← hshape.length, min_self]
    have hreaddims := @reads_readDims (dims.zip lbounds) hshape.dims 1
      (by rw [hcount]; exact hshape.bounded) (by rw [hfst, hshape.prod hne]; exact hne)
    rw [hcount, hziplen] at hreaddims
    have hndim : (UInt8.ofNat dims.length).toNat = dims.length := by
      rw [UInt8.toNat_ofNat']
      exact Nat.mod_eq_of_lt (by omega)
    have hndim0 : UInt8.ofNat dims.length ≠ 0 := by
      intro h0
      rw [h0] at hndim
      have : (0 : UInt8).toNat = 0 := rfl
      omega
    have hndim7 : ¬6 < UInt8.ofNat dims.length := by
      rw [UInt8.lt_iff_toNat_lt, hndim]
      have : (6 : UInt8).toNat = 6 := rfl
      omega
    refine ⟨UInt8.ofNat dims.length :: (if elements.any isNull then 0x01 else 0x00) ::
      ((dims.zip lbounds).flatMap encodeArrayDim ++
        ((if elements.any isNull then nullBitmap (elements.map isNull) else []) ++ bodies)), ?_, ?_⟩
    · rw [encodeArrayBodyOver, if_neg (by rw [hel]; exact Bool.false_ne_true), if_neg (by have := hshape.length; omega),
        hbodies]
      rfl
    · refine Reads.bind (b := [_]) (reads_readU8 _) (Reads.bind (b := [_]) (reads_readU8 _) ?_)
      have hflags : ((if elements.any isNull then 0x01 else 0x00 : UInt8) &&& 0xfe = 0) ∧
          ((if elements.any isNull then 0x01 else 0x00 : UInt8) &&& 0x01 != 0)
            = elements.any isNull := by
        cases elements.any isNull <;> decide
      rw [if_neg (not_not_intro hflags.1), if_neg hndim0, if_neg hndim7, hndim]
      refine hreaddims.bind ?_
      simp only [hflags.2]
      have hbitmap : Reads (if elements.any isNull then take ((elements.length + 7) / 8) else pure [])
          (if elements.any isNull then nullBitmap (elements.map isNull) else [])
          (if elements.any isNull then nullBitmap (elements.map isNull) else []) := by
        cases elements.any isNull
        · exact Reads.pure []
        · refine reads_take_of ?_
          rw [if_pos rfl, nullBitmap_length, List.length_map]
      refine hbitmap.bind ?_
      have hsame : (fun i => if elements.any isNull then readSlot inner
            (if elements.any isNull then nullBitmap (elements.map isNull) else []) i else inner)
          = fun i => if elements.any isNull then
            readSlot inner (nullBitmap (elements.map isNull)) i else inner := by
        funext i
        cases elements.any isNull <;> rfl
      rw [hsame]
      refine hreads.check ?_
      rw [DecodeMode.constructs_construct, if_pos rfl, hfst, hsnd]
      exact Reads.pure _

theorem Storable.ne_null {ct : ColType} (h : Storable ct v) : v ≠ .null := by
  rintro rfl
  cases ct with
  | scalar s =>
    cases h with
    | keyed h _ => exact h.ne_null rfl
  | composite fields => exact h
  | array elem => exact h
  | range elem => cases elem <;> exact h

theorem fieldsStorable_length {fields : List ColType} {vals : List Value}
    (h : FieldsStorable fields vals) : vals.length = fields.length := by
  induction fields generalizing vals with
  | nil =>
    cases vals with
    | nil => rfl
    | cons => exact h.elim
  | cons f fields ih =>
    cases vals with
    | nil => exact h.elim
    | cons v vals => exact congrArg (· + 1) (ih h.2)

mutual

/-- A stored value comes back. -/
theorem readsBack_value (ct : ColType) {v : Value} (h : Storable ct v) (hfits : InlineFits v) :
    ReadsBack (encodeValue ct) (readInlineBody .construct ct) v := by
  match ct with
  | .scalar s => exact readsBack_scalar h hfits
  | .composite fields =>
    cases v <;> try exact h.elim
    rename_i vals
    have hlen : vals.length = fields.length := fieldsStorable_length h
    have hzip : (fields.zip vals).map (isNull ·.2) ++ List.replicate (fields.length - vals.length) false
        = vals.map isNull := by
      have hsnd : (fields.zip vals).map (·.2) = vals := List.map_snd_zip (le_of_eq hlen)
      rw [hlen, Nat.sub_self, List.replicate_zero, List.append_nil]
      nth_rewrite 2 [← hsnd]
      rw [List.map_map]
      rfl
    obtain ⟨bodies, hbodies, hreads⟩ := @readsBack_fields fields vals
      (nullBitmap (vals.map isNull)) 0 h hfits fun k w hw => by
        rw [Nat.zero_add]
        exact nullBit_nullBitmap (by rw [List.getElem?_map, hw]; rfl)
    refine ⟨nullBitmap (vals.map isNull) ++ bodies, ?_, ?_⟩
    · rw [encodeValue, hbodies, hzip]
      rfl
    · rw [oneNaN, allOneNaN_eq]
      refine (reads_take_of ?_).bind (hreads.check (Reads.pure _))
      rw [nullBitmap_length, List.length_map, hlen]
  | .array elem =>
    cases v <;> try exact h.elim
    rename_i dims lbounds elements
    have hel : ∀ e ∈ elements, e ≠ .null →
        ReadsBack (encodeValue elem) (readInlineBody .construct elem) e := fun e he hne =>
      readsBack_value elem (h.2 e he hne) (allFit_iff.mp hfits e he)
    obtain ⟨body, hbody, hread⟩ := readsBack_array h.1 hel
    refine ⟨body, ?_, ?_⟩
    · rw [encodeValue, hbody]
      rfl
    · rw [oneNaN, allOneNaN_eq]
      exact hread
  | .range elem =>
    cases elem <;> try exact h.elim
    cases v <;> try exact h.elim
    obtain ⟨body, hbody, hread⟩ := readsBack_range h.1 h.2
    refine ⟨body, ?_, hread⟩
    rw [encodeValue]
    exact congrArg (Except.map (0x00 :: ·)) hbody

/-- The fields of a composite come back, each by its bit of the bitmap. -/
theorem readsBack_fields (fields : List ColType) {vals : List Value} {bitmap : Bytes} {i : ℕ}
    (h : FieldsStorable fields vals) (hfits : AllFit vals)
    (hbits : ∀ k v, vals[k]? = some v → nullBit bitmap (i + k) = .ok (isNull v)) :
    ∃ bodies, encodeFieldBodies fields vals = .ok bodies ∧
      Reads (readFields .construct bitmap i fields) bodies (vals.map oneNaN) := by
  match fields, vals with
  | [], [] => exact ⟨[], rfl, Reads.pure []⟩
  | [], _ :: _ => exact h.elim
  | _ :: _, [] => exact h.elim
  | f :: fields, v :: vals =>
    obtain ⟨rest, hrest, hreads⟩ := readsBack_fields fields h.2 hfits.2 (i := i + 1)
      fun k w hw => by
        have := hbits (k + 1) w hw
        rwa [← Nat.add_assoc, Nat.add_right_comm] at this
    obtain ⟨body, hbody, hread⟩ := readsBack_slot (hbits 0 v rfl) fun hv =>
      readsBack_value f (h.1 hv) hfits.1
    refine ⟨body ++ rest, ?_, hread.bind hreads.map⟩
    rw [encodeFieldBodies, hbody, hrest]
    rfl

end

end Jed.Codec
