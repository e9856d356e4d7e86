import Jed.Codec.LeafPage
import Jed.Codec.PlanInvariance

/-!
# Stored forms

What a reader of records defers a written value to, and the length of what it resolves to: that of the
value, where it is short enough to be planned inline.
-/

namespace Jed.Codec

open Readers Key PMap Results Ranges

variable {ct : ColType} {v : Value} {bytes : Bytes}

/-- A value of a column of a fixed width is written at that width. -/
theorem encodeValue_fixed {width : ℕ} (h : Storable ct v)
    (hw : fixedValueWidth ct = some width) (henc : encodeValue ct v = .ok bytes) :
    (bytes.drop 1).length = width := by
  cases ct with
  | composite | array | range => cases hw
  | scalar ty =>
    cases h with
    | json h | jsonb h => cases hw
    | keyed h hutf8 =>
      cases h with
      | text | decimal | bytea => cases hw
      | uuid h =>
        cases hw
        cases henc
        exact h
      | int16 | int32 | int64 | bool | timestamp | timestamptz | interval | float32 | float64 | date =>
        cases hw
        cases henc
        simp only [List.drop_succ_cons, List.drop_zero, encodeInt, signedBytes, widthBytes,
          List.length_append, beBytes_length, List.length_cons, List.length_nil]

theorem storedBits_storedBits (fmt : FloatFormat) (x : BitVec fmt.width)
    (hquiet : fmt.isNaN fmt.quietNaN = true) : storedBits fmt (storedBits fmt x) = storedBits fmt x := by
  unfold storedBits
  by_cases hnan : fmt.isNaN x = true
  · rw [if_pos hnan, if_pos hquiet]
  · rw [if_neg hnan, if_neg hnan]

theorem isNull_oneNaN (v : Value) : isNull (oneNaN v) = isNull v := by
  cases v <;> rfl

variable {encode : Value → Except Failure Bytes}

theorem bodyOf_oneNaN (h : encode (oneNaN v) = encode v) : bodyOf encode (oneNaN v) = bodyOf encode v := by
  unfold bodyOf
  rw [isNull_oneNaN, h]

theorem any_isNull_oneNaN (vals : List Value) : (vals.map oneNaN).map isNull = vals.map isNull := by
  rw [List.map_map]
  exact List.map_congr_left fun v _ => isNull_oneNaN v

theorem concatKeys_congr {vals : List Value} (h : ∀ v ∈ vals, encode (oneNaN v) = encode v) :
    concatKeys encode (vals.map oneNaN) = concatKeys encode vals := by
  induction vals with
  | nil => rfl
  | cons v vals ih =>
    rw [List.map_cons, concatKeys, concatKeys, h v List.mem_cons_self,
      ih fun w hw => h w (List.mem_cons_of_mem _ hw)]

theorem oneNaN_null (h : v = .null) : oneNaN v = v := by
  rw [h]
  rfl

mutual

/-- All NaNs are written alike. -/
theorem encodeValue_oneNaN (ct : ColType) {v : Value} (h : Storable ct v) :
    encodeValue ct (oneNaN v) = encodeValue ct v := by
  match ct with
  | .scalar ty =>
    cases h with
    | json | jsonb => rfl
    | keyed h hutf8 =>
      cases h with
      | float32 x =>
        show Except.ok (0x00 :: beBytes 4 _) = Except.ok (0x00 :: beBytes 4 _)
        rw [storedBits_storedBits binary32 x (by decide)]
      | float64 x =>
        show Except.ok (0x00 :: beBytes 8 _) = Except.ok (0x00 :: beBytes 8 _)
        rw [storedBits_storedBits binary64 x (by decide)]
      | _ => rfl
  | .composite fields =>
    cases v <;> try exact h.elim
    rename_i vals
    have hnulls : (fields.zip (vals.map oneNaN)).map (isNull ·.2) = (fields.zip vals).map (isNull ·.2) := by
      rw [List.zip_map_right, List.map_map]
      exact List.map_congr_left fun p _ => isNull_oneNaN p.2
    rw [oneNaN, allOneNaN_eq, encodeValue, encodeValue, encodeFieldBodies_oneNaN fields h, hnulls,
      List.length_map]
  | .array elem =>
    cases v <;> try exact h.elim
    rename_i dims lbounds elements
    have hbodies : concatKeys (bodyOf (encodeValue elem)) (elements.map oneNaN)
        = concatKeys (bodyOf (encodeValue elem)) elements := by
      refine concatKeys_congr fun e he => ?_
      by_cases hnull : e = .null
      · rw [oneNaN_null hnull]
      · exact bodyOf_oneNaN (encodeValue_oneNaN elem (h.2 e he hnull))
    have hany : (elements.map oneNaN).any isNull = elements.any isNull := by
      rw [List.any_map]
      exact congrArg elements.any (funext isNull_oneNaN)
    rw [oneNaN, allOneNaN_eq, encodeValue, encodeValue, encodeArrayBodyOver, encodeArrayBodyOver,
      List.isEmpty_map, hany, hbodies, any_isNull_oneNaN]
  | .range elem =>
    cases elem <;> try exact h.elim
    cases v <;> try exact h.elim
    rfl

theorem encodeFieldBodies_oneNaN (fields : List ColType) {vals : List Value}
    (h : FieldsStorable fields vals) :
    encodeFieldBodies fields (vals.map oneNaN) = encodeFieldBodies fields vals := by
  match fields, vals with
  | [], [] => rfl
  | f :: fields, [] => rfl
  | f :: fields, v :: vals =>
    have hbody : bodyOf (encodeValue f) (oneNaN v) = bodyOf (encodeValue f) v := by
      by_cases hnull : v = .null
      · rw [oneNaN_null hnull]
      · exact bodyOf_oneNaN (encodeValue_oneNaN f (h.1 hnull))
    rw [List.map_cons, encodeFieldBodies, encodeFieldBodies, hbody, encodeFieldBodies_oneNaN fields h.2]

end

/-- A value written behind another one's bytes takes no more than all of them. -/
theorem concatKeys_le {vals : List Value} (h : concatKeys encode vals = .ok bytes) (hv : v ∈ vals) :
    ∃ body, encode v = .ok body ∧ body.length ≤ bytes.length := by
  induction vals generalizing bytes with
  | nil => cases hv
  | cons x vals ih =>
    obtain ⟨body, hbody, h⟩ := bind_eq_ok.mp h
    obtain ⟨rest, hrest, h⟩ := bind_eq_ok.mp h
    cases h
    rw [List.length_append]
    cases List.mem_cons.mp hv with
    | inl hx => exact ⟨body, hx ▸ hbody, Nat.le_add_right _ _⟩
    | inr hv =>
      obtain ⟨b, hb, hle⟩ := ih hrest hv
      exact ⟨b, hb, by omega⟩

/-- A body is its encoding less the tag. -/
theorem bodyOf_ok {body : Bytes} (hv : v ≠ .null)
    (h : bodyOf encode v = .ok body) : ∃ bytes, encode v = .ok bytes ∧ bytes.length ≤ body.length + 1 := by
  unfold bodyOf at h
  rw [if_neg (by rwa [isNull_iff])] at h
  obtain ⟨bytes, hbytes, h⟩ := map_eq_ok.mp h
  cases h
  refine ⟨bytes, hbytes, ?_⟩
  rw [List.length_drop]
  omega

mutual

/-- A value that takes fewer than 2¹⁶ bytes has no string that takes more. -/
theorem inlineFits_of_short (ct : ColType) {v : Value} {bytes : Bytes} (h : Storable ct v)
    (henc : encodeValue ct v = .ok bytes) (hshort : bytes.length < 2 ^ 16) : InlineFits v := by
  match ct with
  | .scalar ty =>
    have hstring : ∀ {s : Bytes}, Except.ok (0x00 :: encodeString s) = Except.ok (ε := Failure) bytes →
        s.length < 2 ^ 16 := by
      intro s hs
      cases hs
      simp only [encodeString, List.length_cons, List.length_append] at hshort
      omega
    cases h with
    | json => exact hstring henc
    | jsonb => trivial
    | keyed h hutf8 =>
      cases h with
      | text | bytea => exact hstring henc
      | _ => trivial
  | .composite fields =>
    cases v <;> try exact h.elim
    rw [encodeValue] at henc
    obtain ⟨bodies, hbodies, henc⟩ := bind_eq_ok.mp henc
    cases henc
    rw [List.length_cons, List.length_append] at hshort
    exact allFit_of_short fields h hbodies (by omega)
  | .array elem =>
    cases v <;> try exact h.elim
    rename_i dims lbounds elements
    rw [encodeValue] at henc
    obtain ⟨body, hbody, henc⟩ := map_eq_ok.mp henc
    cases henc
    refine allFit_iff.mpr fun e he => ?_
    by_cases hnull : e = .null
    · rw [hnull]
      trivial
    · unfold encodeArrayBodyOver at hbody
      rw [if_neg (by rw [List.isEmpty_iff]; exact List.ne_nil_of_mem he)] at hbody
      split at hbody
      · cases hbody
      · obtain ⟨bodies, hbodies, hbody⟩ := bind_eq_ok.mp hbody
        cases hbody
        obtain ⟨b, hb, hle⟩ := concatKeys_le hbodies he
        obtain ⟨bytes, hbytes, hlen⟩ := bodyOf_ok hnull hb
        simp only [List.length_cons, List.length_append] at hshort
        exact inlineFits_of_short elem (h.2 e he hnull) hbytes (by omega)
  | .range elem =>
    cases elem <;> try exact h.elim
    cases v <;> try exact h.elim
    trivial

theorem allFit_of_short (fields : List ColType) {vals : List Value} {bytes : Bytes}
    (h : FieldsStorable fields vals) (henc : encodeFieldBodies fields vals = .ok bytes)
    (hshort : bytes.length + 1 < 2 ^ 16) : AllFit vals := by
  match fields, vals with
  | [], [] => trivial
  | f :: fields, [] => trivial
  | f :: fields, v :: vals =>
    rw [encodeFieldBodies] at henc
    obtain ⟨body, hbody, henc⟩ := bind_eq_ok.mp henc
    obtain ⟨rest, hrest, henc⟩ := bind_eq_ok.mp henc
    cases henc
    rw [List.length_append] at hshort
    refine ⟨?_, allFit_of_short fields h.2 hrest (by omega)⟩
    by_cases hnull : v = .null
    · rw [hnull]
      trivial
    · obtain ⟨b, hb, hlen⟩ := bodyOf_ok hnull hbody
      exact inlineFits_of_short f (h.1 hnull) hb (by omega)

end

theorem known_of_encoded {inline : Bytes} (h : Storable ct v)
    (hspill : isSpillable ct = true) (henc : encodeValue ct v = .ok inline) :
    ∃ payload, Known ct v inline payload := by
  have hpayload : ∃ payload, valuePayload ct v = .ok payload := by
    cases ct with
    | scalar ty =>
      cases h with
      | json | jsonb => exact ⟨_, rfl⟩
      | keyed h hutf8 =>
        cases h <;> first | exact ⟨_, rfl⟩ | exact absurd hspill (by decide)
    | composite | array =>
      cases v <;> try exact h.elim
      exact ⟨_, by rw [valuePayload, henc]; rfl⟩
    | range elem =>
      cases elem <;> try exact h.elim
      cases v <;> try exact h.elim
      exact ⟨_, by rw [valuePayload, henc]; rfl⟩
  obtain ⟨payload, hpayload⟩ := hpayload
  exact ⟨payload, henc, hpayload, encodeValue_behind h hspill henc hpayload⟩

variable {payload : Bytes}

theorem known_of_payload (h : Storable ct v)
    (hspill : isSpillable ct = true) (hpayload : valuePayload ct v = .ok payload) :
    ∃ inline, Known ct v inline payload := by
  have hinline : ∃ inline, encodeValue ct v = .ok inline := by
    cases ct with
    | scalar ty =>
      cases h with
      | json | jsonb => exact ⟨_, rfl⟩
      | keyed h hutf8 => cases h <;> exact ⟨_, rfl⟩
    | composite | array =>
      cases v <;> try exact h.elim
      obtain ⟨inline, hinline, -⟩ := map_eq_ok.mp hpayload
      exact ⟨inline, hinline⟩
    | range elem =>
      cases elem <;> try exact h.elim
      cases v <;> try exact h.elim
      obtain ⟨inline, hinline, -⟩ := map_eq_ok.mp hpayload
      exact ⟨inline, hinline⟩
  obtain ⟨inline, hinline⟩ := hinline
  exact ⟨inline, hinline, hpayload, encodeValue_behind h hspill hinline hpayload⟩

/-- A chain is read for as many bytes as are asked for. -/
theorem readOverflowFrom_length {fetch : PageRef → Except Failure Bytes} {cap : Cap} {len : ℕ} (k : ℕ) :
    ∀ {p : PageRef} {seen : List ℕ} {out bytes : Bytes}, len - out.length ≤ k → out.length ≤ len →
      readOverflowFrom fetch cap len p seen out = .ok bytes → bytes.length = len := by
  induction k with
  | zero =>
    intro p seen out bytes hk hout h
    rw [readOverflowFrom, if_neg (by omega)] at h
    cases h
    omega
  | succ k ih =>
    intro p seen out bytes hk hout h
    rw [readOverflowFrom] at h
    split at h
    · split at h
      · cases h
      · split at h
        · cases h
        · obtain ⟨block, -, h⟩ := bind_eq_ok.mp h
          obtain ⟨page, -, h⟩ := bind_eq_ok.mp h
          split at h
          · cases h
          · obtain ⟨⟨next, slab⟩, -, h⟩ := bind_eq_ok.mp h
            dsimp only at h
            split at h
            · cases h
            · rename_i hrange
              refine ih ?_ ?_ h
              · rw [List.length_append, List.length_take]
                omega
              · rw [List.length_append, List.length_take]
                omega
    · cases h
      omega

variable {src : ChainSource} {first : PageRef}

theorem ChainSource.readChain_length {len : ℕ} (h : src.readChain first len = .ok bytes) : bytes.length = len := by
  unfold readChain at h
  split at h
  · cases h
  · exact readOverflowFrom_length len (Nat.sub_le _ _) (Nat.zero_le _) h

/-- A chain that bytes were written to: whatever is read of it is a front of them. -/
structure ChainSource.Holds (src : ChainSource) (first : PageRef) (bytes : Bytes) : Prop where
  tag : first.tag.length = TAG_LEN
  front : ∀ len raw, src.readChain first len = .ok raw → raw <+: bytes

variable {sealer : Sealer} {fresh : ℕ → ℕ} {ovf : List (ℕ × Bytes)} {blocks : ℕ → Except Failure Bytes}

/-- A chain that is on its pages holds what was written to it. -/
theorem ChainSource.holds_of_written (hsrc : src.paging = some ⟨sealer.readBody blocks, sealer.cap⟩)
    (hwrite : writeOverflowChain bytes sealer fresh = .ok (first, ovf)) (hfresh : Fresh (ovf.map (·.1)))
    (hblocks : ∀ p ∈ ovf, blocks p.1 = .ok p.2) : src.Holds first bytes := by
  obtain ⟨hpoints, hgathered⟩ := readOverflowChain_gather hwrite hfresh hblocks
  refine ⟨hpoints.length, fun len raw hraw => ?_⟩
  unfold readChain at hraw
  rw [hsrc] at hraw
  dsimp only at hraw
  rw [hgathered] at hraw
  have hfront := (gather_front (Nat.zero_le _) hraw).2
  rwa [List.nil_append, chunks_flatten sealer.chain_bounds.1] at hfront

theorem Sealer.page_tag {index items : ℕ} {t f : UInt8} {next : PageRef}
    {tag : Bytes} (h : sealer.page index t f items next payload = .ok (bytes, tag)) :
    tag.length = TAG_LEN := by
  unfold Sealer.page at h
  split at h
  · split at h
    · cases h
    · cases h
      exact List.length_replicate
  · rename_i codec hcodec
    have hseal : ∀ {page}, codec.sealBody index page = .ok (bytes, tag) → tag.length = TAG_LEN := by
      intro page hpage
      obtain ⟨nonce, -, hpage⟩ := bind_eq_ok.mp hpage
      cases hpage
      exact codec.tag_length _ _ _
    dsimp only at h
    generalize (if t = PAGE_CATALOG ∨ t = PAGE_OVERFLOW ∨ t = PAGE_FREELIST then next.tag else []) = lead at h
    split at h
    · cases h
    · exact hseal h

theorem sealChain_tag {parts : List (ℕ × Bytes)}
    (h : sealChain sealer parts = .ok (first, ovf)) :
    first.tag.length = TAG_LEN := by
  cases parts with
  | nil =>
    cases h
    exact sealer.points_none.length
  | cons part parts =>
    obtain ⟨⟨next, ovf'⟩, -, h⟩ := bind_eq_ok.mp h
    obtain ⟨⟨bytes, tag⟩, hpage, h⟩ := bind_eq_ok.mp h
    cases h
    exact Sealer.page_tag hpage

theorem writeChain_tag {w w' : Written} (h : writeChain sealer fresh payload w = .ok (first, w')) :
    first.tag.length = TAG_LEN := by
  obtain ⟨⟨first', ovf⟩, hchain, h⟩ := bind_eq_ok.mp h
  cases h
  exact sealChain_tag hchain

theorem ChainSource.keepChain_tag
    {kept : PageRef} {stored : ℕ} {w w' : Written} (hfirst : first.tag.length = TAG_LEN)
    (h : src.keepChain sealer fresh first stored w = .ok (kept, w')) : kept.tag.length = TAG_LEN := by
  unfold keepChain at h
  split at h
  · cases h
    exact hfirst
  · obtain ⟨bytes, -, h⟩ := bind_eq_ok.mp h
    exact writeChain_tag h

theorem Sealer.cap_tag_le (sealer : Sealer) : sealer.cap.tag ≤ TAG_LEN := by
  unfold Sealer.cap Cap.of Cap.encrypted Cap.plain
  split
  · exact le_rfl
  · exact Nat.zero_le _

theorem length_externalPointer (h : first.tag.length = TAG_LEN)
    (len : ℕ) : (externalPointer sealer.cap first len).length = EXTERNAL_PTR_LEN + sealer.cap.tag := by
  have htag := sealer.cap_tag_le
  simp only [externalPointer, EXTERNAL_PTR_LEN, List.length_cons, List.length_append, beBytes_length,
    List.length_take, h]
  omega

theorem length_externalCompPointer (h : first.tag.length = TAG_LEN) (storedLen rawLen : ℕ) :
    (externalCompPointer sealer.cap first storedLen rawLen).length
      = EXTERNAL_COMP_PTR_LEN + sealer.cap.tag := by
  have htag := sealer.cap_tag_le
  simp only [externalCompPointer, EXTERNAL_COMP_PTR_LEN, List.length_cons, List.length_append,
    beBytes_length, List.length_take, h]
  omega

/-- The stored form of a value: its bytes, or the lengths that were written of it. -/
inductive StoredForm (src : ChainSource) (ct : ColType) (v : Value) : Unfetched → Prop where
  | inline {body : Bytes} (h : encodeValue ct v = .ok (0x00 :: body)) : StoredForm src ct v (.inline body)
  | external {payload : Bytes} {first : PageRef} (h : valuePayload ct v = .ok payload)
      (hchain : src.Holds first payload) :
      StoredForm src ct v (.external first (payload.length % 2 ^ 32))
  | inlineComp {payload : Bytes} (h : valuePayload ct v = .ok payload) :
      StoredForm src ct v (.inlineComp (Lz4.compress payload) (payload.length % 2 ^ 32))
  | externalComp {payload : Bytes} {first : PageRef} (h : valuePayload ct v = .ok payload)
      (hchain : src.Holds first (Lz4.compress payload)) :
      StoredForm src ct v (.externalComp first ((Lz4.compress payload).length % 2 ^ 32)
        (payload.length % 2 ^ 32))

/-- What a large form resolves to is read off a front of the value's payload. -/
theorem StoredForm.resolves {w : Value} {u : Unfetched}
    (hform : StoredForm src ct v u) (hlarge : u.isLarge = true)
    (hres : src.residentValue ct (.unfetched u) = .ok w) :
    ∃ payload raw, valuePayload ct v = .ok payload ∧ u.payloadLen ct = payload.length % 2 ^ 32 ∧
      raw <+: payload ∧ raw.length = payload.length % 2 ^ 32 ∧ valueFromPayload ct raw = .ok w := by
  unfold ChainSource.residentValue at hres
  dsimp only at hres
  split at hres
  · cases hres
  · rename_i paging hpaging
    have hread : ∀ {first len raw}, readOverflowChain paging.fetch paging.cap len first = .ok raw →
        src.readChain first len = .ok raw := by
      intro first len raw h
      unfold ChainSource.readChain
      rw [hpaging]
      exact h
    cases hform with
    | inline h => cases hlarge
    | @external payload first h hchain =>
      obtain ⟨raw, hraw, hres⟩ := bind_eq_ok.mp hres
      exact ⟨payload, raw, h, rfl, hchain.front _ _ (hread hraw),
        ChainSource.readChain_length (hread hraw), hres⟩
    | @inlineComp payload h =>
      obtain ⟨raw, hraw, hres⟩ := bind_eq_ok.mp hres
      obtain ⟨hfront, hlen⟩ := Lz4.decompress_front (List.prefix_refl _) hraw
      exact ⟨payload, raw, h, rfl, hfront, hlen, hres⟩
    | @externalComp payload first h hchain =>
      obtain ⟨comp, hcomp, hres⟩ := bind_eq_ok.mp hres
      obtain ⟨raw, hraw, hres⟩ := bind_eq_ok.mp hres
      obtain ⟨hfront, hlen⟩ := Lz4.decompress_front (hchain.front _ _ (hread hcomp)) hraw
      exact ⟨payload, raw, h, rfl, hfront, hlen, hres⟩

/-- A value whose stored form it comes back from: its payload is counted in 32 bits, or else its
    strings in 16. -/
def Kept (ct : ColType) (v : Value) : Prop :=
  ∀ payload, valuePayload ct v = .ok payload → payload.length < 2 ^ 32 ∨ InlineFits v

/-- A large form that is short enough to go inline is written as long as it was counted. -/
theorem StoredForm.inline_length {w : Value} {u : Unfetched}
    (h : Storable ct v) (hspill : isSpillable ct = true) (hkept : Kept ct v)
    (hform : StoredForm src ct v u) (hlarge : u.isLarge = true)
    (hshort : u.payloadLen ct + inlineHeaderLen ct < 2 ^ 16)
    (hres : src.residentValue ct (.unfetched u) = .ok w) (henc : encodeValue ct w = .ok bytes) :
    bytes.length = u.payloadLen ct + inlineHeaderLen ct := by
  obtain ⟨payload, raw, hpayload, hlen, hfront, hrawlen, hback⟩ := hform.resolves hlarge hres
  by_cases hcounted : payload.length < 2 ^ 32
  · rw [Nat.mod_eq_of_lt hcounted] at hlen hrawlen
    obtain rfl : raw = payload := hfront.eq_of_length hrawlen
    obtain ⟨inline, hknown⟩ := known_of_payload h hspill hpayload
    have hinline := hknown.behind.1
    have hfits := inlineFits_of_short ct h hknown.encoded (by omega)
    obtain ⟨payload, hpayload', hvalue⟩ := valueFromPayload_valuePayload h hspill hfits
    cases hpayload.symm.trans hpayload'
    cases hback.symm.trans hvalue
    rw [encodeValue_oneNaN ct h, hknown.encoded] at henc
    cases henc
    omega
  · have hfits := (hkept payload hpayload).resolve_left hcounted
    exact absurd hback (not_valueFromPayload_cut h hfits hspill hpayload (not_lt.mp hcounted) hfront
      (by rw [hrawlen, show 256 ^ 4 = 2 ^ 32 from rfl]) w)

/-- The plan of a resident value, with the blocks it made. -/
def Disp.plan : Disp → PlanDisp
  | .inline => .inline
  | .external => .external
  | .inlineComp comp => .inlineComp (.owned comp)
  | .externalComp comp => .externalComp (.owned comp)

/-- What is written of a value, on pages that are there when it is read, is deferred to its stored
    form. -/
theorem storedForm_of_written {disp : Disp}
    (share : Bool)
    (h : Storable ct v) (hspill : isSpillable ct = true) (hfits : disp = .inline → InlineFits v)
    (hplan : Planned ct v sealer.cap disp)
    (henc : encodeDisposedValue ct v disp sealer fresh = .ok (bytes, ovf)) (hfresh : Fresh (ovf.map (·.1)))
    (hblocks : ∀ p ∈ ovf, blocks p.1 = .ok p.2) :
    ∃ u, Reads (readValueLazy ct sealer.cap) bytes (.unfetched u) ∧
      StoredForm ⟨some ⟨sealer.readBody blocks, sealer.cap⟩, share⟩ ct v u := by
  cases disp with
  | inline =>
    obtain ⟨body, hbody, hread⟩ := readsBack_value ct h (hfits rfl)
    rw [encodeDisposedValue, hbody] at henc
    cases henc
    refine ⟨.inline body, ?_, .inline hbody⟩
    unfold readValueLazy
    refine (reads_readU8 0x00).bind ?_
    rw [if_pos rfl, if_pos hspill]
    exact (reads_inlineBodySpan hread).map
  | external =>
    obtain ⟨payload, hpayload, henc⟩ := bind_eq_ok.mp henc
    obtain ⟨⟨first, ovf'⟩, hchain, henc⟩ := bind_eq_ok.mp henc
    cases henc
    obtain ⟨hpoints, -⟩ := readOverflowChain_gather hchain hfresh hblocks
    refine ⟨.external first (payload.length % 2 ^ 32), ?_,
      .external hpayload (ChainSource.holds_of_written rfl hchain hfresh hblocks)⟩
    unfold readValueLazy
    refine (reads_readU8 TAG_EXTERNAL).bind ?_
    rw [if_neg (by decide), if_neg (by decide), if_pos rfl]
    refine (reads_readBe (w := 4) hpoints.page).bind ((reads_readBe_mod 4 _).bind ?_)
    exact (reads_readPointerTag hpoints).map
  | inlineComp comp =>
    obtain ⟨-, ⟨payload, hpayload, rfl, -⟩, k, hroom⟩ := hplan
    have hshort : (Lz4.compress payload).length < 2 ^ 16 := by
      have hbounds := sealer.cap_c_le
      unfold recordMax INLINE_COMP_OVERHEAD at hroom
      omega
    rw [encodeDisposedValue, hpayload] at henc
    cases henc
    refine ⟨.inlineComp (Lz4.compress payload) (payload.length % 2 ^ 32), ?_, .inlineComp hpayload⟩
    unfold readValueLazy
    refine (reads_readU8 TAG_INLINE_COMP).bind ?_
    rw [if_neg (by decide), if_neg (by decide), if_neg (by decide), if_pos rfl]
    refine (reads_readBe_mod 4 _).bind ((reads_readBe (w := 2) hshort).bind ?_)
    exact (reads_take _).map
  | externalComp comp =>
    obtain ⟨-, payload, hpayload, rfl, -⟩ := hplan
    rw [encodeDisposedValue, hpayload] at henc
    obtain ⟨⟨first, ovf'⟩, hchain, henc⟩ := bind_eq_ok.mp
      (show (writeOverflowChain (Lz4.compress payload) sealer fresh >>= _) = _ from henc)
    cases henc
    obtain ⟨hpoints, -⟩ := readOverflowChain_gather hchain hfresh hblocks
    refine ⟨.externalComp first ((Lz4.compress payload).length % 2 ^ 32) (payload.length % 2 ^ 32), ?_,
      .externalComp hpayload (ChainSource.holds_of_written rfl hchain hfresh hblocks)⟩
    unfold readValueLazy
    refine (reads_readU8 TAG_EXTERNAL_COMP).bind ?_
    rw [if_neg (by decide), if_neg (by decide), if_neg (by decide), if_neg (by decide), if_pos rfl]
    refine (reads_readBe (w := 4) hpoints.page).bind ?_
    refine (reads_readBe_mod 4 _).bind ((reads_readBe_mod 4 _).bind ?_)
    exact (reads_readPointerTag hpoints).map

/-- The seal of a plain database of 8192-byte pages. -/
def plainSealer : Sealer := Sealer.mk 8192 none rfl (by simp)

/-- The page of a chain that holds one byte. -/
def onePage : Bytes := stampCrc (layPage 8192 PAGE_OVERFLOW 0 1 0 [7])

/-- A byte string on a page of its own. -/
theorem storedForm_of_written_external : ∃ u,
    Reads (readValueLazy (.scalar .bytea) plainSealer.cap) (TAG_EXTERNAL :: (beBytes 4 9 ++ (beBytes 4 1 ++ [])))
      (.unfetched u) ∧
      StoredForm ⟨some ⟨plainSealer.readBody fun _ => .ok onePage, plainSealer.cap⟩, false⟩ (.scalar .bytea)
        (.bytea [7]) u := by
  have hchunks : chunks plainSealer.cap.chain [7] = [[7]] := by
    have hroom : plainSealer.cap.chain = 8176 := rfl
    rw [hroom, chunks, dif_neg (by decide), chunks, dif_pos (by decide)]
    rfl
  have hwrite : writeOverflowChain [7] plainSealer (fun _ => 9) = .ok (⟨9, NO_TAG⟩, [(9, onePage)]) := by
    rw [writeOverflowChain, hchunks]
    rfl
  have henc : encodeDisposedValue (.scalar .bytea) (.bytea [7]) .external plainSealer (fun _ => 9) =
      .ok (TAG_EXTERNAL :: (beBytes 4 9 ++ (beBytes 4 1 ++ [])), [(9, onePage)]) := by
    show (writeOverflowChain [7] plainSealer (fun _ => 9) >>= _) = _
    rw [hwrite]
    rfl
  have hplan : Planned (.scalar .bytea) (.bytea [7]) plainSealer.cap .external := rfl
  exact storedForm_of_written false (.keyed (.bytea [7]) fun _ h => by cases h) rfl (fun h => by cases h) hplan henc
    ⟨by simp, by simp⟩ fun p hp => by
      cases List.mem_singleton.mp hp
      rfl

end Jed.Codec
