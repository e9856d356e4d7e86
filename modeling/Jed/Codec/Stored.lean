import Jed.Codec.Deferred

/-!
# What is stored comes back

A value is read back from every form its record can store it in, on exactly the condition that its
strings and its payload are as long as their lengths are counted.
-/

namespace Jed.Codec

open Readers Key PMap

/-- `inline_header_len` (`format.rs:1316-1321`). -/
def inlineHeaderLen : ColType → Nat
  | .scalar s => if s = .text ∨ s = .bytea ∨ s = .json then 3 else 1
  | _ => 1

/-- `INLINE_COMP_OVERHEAD`. -/
def INLINE_COMP_OVERHEAD : Nat := 1 + 4 + 2

/-- A block as pass 1 of the plan adopts it (`format.rs:1443-1454`). -/
def Adopted (ct : ColType) (v : Value) (comp : Bytes) : Prop :=
  ∃ payload, valuePayload ct v = .ok payload ∧ comp = Lz4.compress payload ∧
    INLINE_COMP_OVERHEAD + comp.length < inlineHeaderLen ct + payload.length

/-- The forms a plan can choose for a value: only one of a spillable type leaves its record or is
    compressed, and a block is kept in a record that has room for it. -/
def Planned (ct : ColType) (v : Value) (cap : Cap) : Disp → Prop
  | .inline => True
  | .external => isSpillable ct
  | .inlineComp comp => isSpillable ct ∧ Adopted ct v comp ∧
      ∃ k, INLINE_COMP_OVERHEAD + comp.length ≤ recordMax cap.c k
  | .externalComp comp => isSpillable ct ∧ Adopted ct v comp

/-- What is written of a value in any form, on pages that are there when it is read, is read to
    something that resolves to the value. -/
def Resolves (ct : ColType) (v : Value) : Prop :=
  ∀ (sealer : Sealer) (fresh : ℕ → ℕ) (disp : Disp) (bytes : Bytes) (ovf : List (ℕ × Bytes)),
    Planned ct v sealer.cap disp → encodeDisposedValue ct v disp sealer fresh = .ok (bytes, ovf) →
    Fresh (ovf.map (·.1)) → ∀ blocks : ℕ → Except Failure Bytes,
      (∀ p ∈ ovf, blocks p.1 = .ok p.2) →
      ∃ stored, Reads (readValueLazy ct sealer.cap) bytes stored ∧
        stored.resolve ct (sealer.readBody blocks) sealer.cap = .ok (oneNaN v)

/-- The round trip of a value: its body is read to the value and no further, skipping takes what
    building takes, every form resolves to the value, and the readers do well on any bytes. -/
structure RoundTrips (ct : ColType) (v : Value) : Prop where
  construct : ReadsBack (encodeValue ct) (readInlineBody .construct ct) v
  skip : InStep fun mode => readInlineBody mode ct
  deferred : Resolves ct v
  anyBytes : ∀ mode, Sound IsCorrupt (readInlineBody mode ct) fun _ => True

/-- More than all the pages of a file hold, which are numbered in 32 bits. -/
def Unwritable (bytes : Bytes) : Prop := (2 ^ 32 - 1) * (2 ^ 16 - 16) < bytes.length

/-- Whether a payload's length is counted in 32 bits. One that is too long for a file, as it is and
    compressed, is never written. -/
def PayloadCounted (ct : ColType) (v : Value) : Prop :=
  isSpillable ct → ∀ payload, valuePayload ct v = .ok payload →
    payload.length < 2 ^ 32 ∨ Unwritable payload ∧ ∀ comp, Adopted ct v comp → Unwritable comp

variable {ct : ColType}

/-- The span of a body that is read back is the body. -/
theorem reads_inlineBodySpan {body : Bytes} {w : Value}
    (h : Reads (readInlineBody .construct ct) body w) : Reads (inlineBodySpan ct) body body := by
  intro rest
  obtain ⟨u, hskip, _⟩ := inStep_readInlineBody ct _ _ _ (h rest)
  have htake : (body ++ rest).take ((body ++ rest).length - rest.length) = body := by
    rw [List.length_append, Nat.add_sub_cancel]
    exact List.take_left
  change readInlineBody .skip ct (body ++ rest) = .ok (u, rest) at hskip
  rw [inlineBodySpan, hskip]
  show Except.ok ((body ++ rest).take ((body ++ rest).length - rest.length), rest) = _
  rw [htake]

variable {v : Value}

/-- A payload reads back. -/
theorem valueFromPayload_valuePayload (h : Storable ct v) (hspill : isSpillable ct) (hfits : InlineFits v) :
    ∃ payload, valuePayload ct v = .ok payload ∧ valueFromPayload ct payload = .ok (oneNaN v) := by
  have hbody := readsBack_value ct h hfits
  match ct, v with
  | .scalar s, v =>
    cases h with
    | json h =>
      refine ⟨_, rfl, ?_⟩
      simp only [valueFromPayload, fromUtf8, if_pos h]
      rfl
    | jsonb h =>
      refine ⟨_, rfl, ?_⟩
      rw [valueFromPayload, (reads_decodeJsonbBody h).run]
      rfl
    | keyed h hutf8 =>
      cases h <;> try exact absurd hspill (by decide)
      · rename_i t
        refine ⟨_, rfl, ?_⟩
        simp only [valueFromPayload, fromUtf8, if_pos (hutf8 t rfl)]
        rfl
      · rename_i d hd
        refine ⟨_, rfl, ?_⟩
        rw [valueFromPayload]
        show (decodeDecimalBody .construct (encodeDecimalBody d)).map (·.1) = _
        rw [(reads_decodeDecimalBody hd).run]
        rfl
      · exact ⟨_, rfl, rfl⟩
  | .composite fields, v =>
    cases v <;> try exact h.elim
    obtain ⟨body, henc, hread⟩ := hbody
    refine ⟨body, ?_, ?_⟩
    · rw [valuePayload, henc]
      rfl
    · rw [valueFromPayload, hread.run]
      rfl
  | .array elem, v =>
    cases v <;> try exact h.elim
    obtain ⟨body, henc, hread⟩ := hbody
    refine ⟨body, ?_, ?_⟩
    · rw [valuePayload, henc]
      rfl
    · rw [valueFromPayload, hread.run]
      rfl
  | .range elem, v =>
    cases elem <;> try exact h.elim
    cases v <;> try exact h.elim
    obtain ⟨body, henc, hread⟩ := hbody
    refine ⟨body, ?_, ?_⟩
    · rw [valuePayload, henc]
      rfl
    · rw [valueFromPayload, hread.run]
      rfl

variable {sealer : Sealer}

/-- The tag of a pointer is read back. -/
theorem reads_readPointerTag {p : PageRef} (h : sealer.Points p) :
    Reads (readPointerTag p.page sealer.cap) (p.tag.take sealer.cap.tag) p := by
  have htag : (p.tag.take sealer.cap.tag).length = sealer.cap.tag ∧
      p.tag.take sealer.cap.tag ++ List.replicate (TAG_LEN - sealer.cap.tag) 0 = p.tag := by
    unfold Sealer.cap
    cases hcodec : sealer.codec with
    | none =>
      rw [h.plain hcodec]
      exact ⟨rfl, rfl⟩
    | some codec =>
      have htake : p.tag.take TAG_LEN = p.tag := List.take_of_length_le h.length.le
      change (p.tag.take TAG_LEN).length = TAG_LEN ∧ p.tag.take TAG_LEN ++ [] = p.tag
      rw [htake, List.append_nil]
      exact ⟨h.length, rfl⟩
  have hread := (reads_take_of htag.1).map (f := fun tag =>
    PageRef.mk p.page (tag ++ List.replicate (TAG_LEN - sealer.cap.tag) 0))
  rw [htag.2] at hread
  exact hread

variable {first : PageRef} {ovf : List (ℕ × Bytes)}

/-- The pages of a sealed chain are those it was given. -/
theorem sealChain_pages {parts : List (ℕ × Bytes)}
    (h : sealChain sealer parts = .ok (first, ovf)) :
    (ovf.map (·.1)).reverse = parts.map (·.1) := by
  induction parts generalizing first ovf with
  | nil =>
    cases h
    rfl
  | cons part parts ih =>
    obtain ⟨index, chunk⟩ := part
    rw [sealChain] at h
    cases hrest : sealChain sealer parts with
    | error e =>
      rw [hrest] at h
      cases h
    | ok p =>
      obtain ⟨next, ovf'⟩ := p
      rw [hrest] at h
      change (sealer.page index PAGE_OVERFLOW 0 chunk.length next chunk >>= fun q =>
        Except.ok (PageRef.mk index q.2, ovf' ++ [(index, q.1)])) = _ at h
      cases hpage : sealer.page index PAGE_OVERFLOW 0 chunk.length next chunk with
      | error e =>
        rw [hpage] at h
        cases h
      | ok q =>
        rw [hpage] at h
        cases h
        rw [List.map_append, List.reverse_append, ih hrest]
        rfl

variable {payload : Bytes} {fresh : ℕ → ℕ}

theorem writeOverflowChain_pages (h : writeOverflowChain payload sealer fresh = .ok (first, ovf)) :
    (ovf.map (·.1)).reverse = chainPages sealer fresh payload := by
  rw [sealChain_pages h, List.map_fst_zip]
  · rfl
  · rw [List.length_map, List.length_range]

theorem readOverflowChain_gather
    (h : writeOverflowChain payload sealer fresh = .ok (first, ovf)) (hfresh : Fresh (ovf.map (·.1)))
    {blocks : ℕ → Except Failure Bytes} (hblocks : ∀ p ∈ ovf, blocks p.1 = .ok p.2) :
    sealer.Points first ∧ ∀ len, readOverflowChain (sealer.readBody blocks) sealer.cap len first
      = gather len [] (chunks sealer.cap.chain payload) := by
  apply readOverflowChain_write h _ hblocks
  rw [← writeOverflowChain_pages h]
  exact ⟨List.nodup_reverse.mpr hfresh.nodup, fun i hi => hfresh.bounds i (List.mem_reverse.mp hi)⟩

/-- Read for its own length it is read to what was written. -/
theorem readOverflowChain_of_pages
    (h : writeOverflowChain payload sealer fresh = .ok (first, ovf)) (hfresh : Fresh (ovf.map (·.1)))
    {blocks : ℕ → Except Failure Bytes} (hblocks : ∀ p ∈ ovf, blocks p.1 = .ok p.2) :
    sealer.Points first ∧
      readOverflowChain (sealer.readBody blocks) sealer.cap payload.length first = .ok payload := by
  obtain ⟨hpoints, hread⟩ := readOverflowChain_gather h hfresh hblocks
  have hall := gather_all (chunks sealer.cap.chain payload) [] fun s hs =>
    List.length_pos_iff.mp (mem_chunks hs).1
  rw [chunks_flatten sealer.chain_bounds.1, List.length_nil, Nat.zero_add, List.nil_append] at hall
  exact ⟨hpoints, (hread _).trans hall⟩

/-- An adopted block is no longer than what it is of, less a few bytes. -/
theorem Adopted.length_lt {comp : Bytes} (h : Adopted ct v comp) (hp : valuePayload ct v = .ok payload) :
    comp = Lz4.compress payload ∧ comp.length < payload.length := by
  obtain ⟨payload', hp', hcomp, hshort⟩ := h
  rw [hp'] at hp
  cases hp
  refine ⟨hcomp, ?_⟩
  have hheader : inlineHeaderLen ct ≤ 3 := by
    unfold inlineHeaderLen
    split
    · split <;> omega
    · omega
  unfold INLINE_COMP_OVERHEAD at hshort
  omega

/-- A chain on pages of its own is of bytes that a file has pages for. -/
theorem writable_of_fresh {bytes : Bytes}
    (h : writeOverflowChain bytes sealer fresh = .ok (first, ovf))
    (hfresh : Fresh (ovf.map (·.1))) : ¬Unwritable bytes := by
  have hcount : (ovf.map (·.1)).length = (chunks sealer.cap.chain bytes).length := by
    rw [← List.length_reverse, writeOverflowChain_pages h, chainPages, List.length_map,
      List.length_range]
  have hpages : (ovf.map (·.1)).length ≤ 2 ^ 32 - 1 := by
    have hsub : ovf.map (·.1) ⊆ List.range' 1 (2 ^ 32 - 1) := by
      intro i hi
      have := hfresh.bounds i hi
      rw [List.mem_range'_1]
      omega
    have := (List.subperm_of_subset hfresh.nodup hsub).length_le
    rwa [List.length_range'] at this
  have hbytes := length_le_chunks sealer.chain_bounds.1 bytes
  have hslab : sealer.cap.chain ≤ 2 ^ 16 - 16 := (Nat.sub_le _ _).trans sealer.cap_c_le
  rw [← hcount] at hbytes
  exact not_lt.mpr (hbytes.trans (Nat.mul_le_mul hpages hslab))

/-- A payload of which something is written is counted. -/
theorem PayloadCounted.lt (h : PayloadCounted ct v)
    (hspill : isSpillable ct) (hpayload : valuePayload ct v = .ok payload)
    (hwritten : ¬Unwritable payload ∨ ∃ comp, Adopted ct v comp ∧ ¬Unwritable comp) :
    payload.length < 2 ^ 32 := by
  obtain hlt | ⟨hlong, hcomp⟩ := h hspill payload hpayload
  · exact hlt
  · obtain hpayload | ⟨comp, hadopted, hroom⟩ := hwritten
    · exact absurd hlong hpayload
    · exact absurd (hcomp comp hadopted) hroom

/-- In every form that is planned for it, a value comes back. -/
theorem resolves_of_fits (h : Storable ct v) (hfits : InlineFits v)
    (hcounted : PayloadCounted ct v) : Resolves ct v := by
  intro sealer fresh disp bytes ovf hplan henc hfresh blocks hblocks
  cases disp with
  | inline =>
    obtain ⟨body, hbody, hread⟩ := readsBack_value ct h hfits
    rw [encodeDisposedValue, hbody] at henc
    cases henc
    cases hspill : isSpillable ct with
    | true =>
      refine ⟨.unfetched (.inline body), ?_, ?_⟩
      · unfold readValueLazy
        refine (reads_readU8 0x00).bind ?_
        rw [if_pos rfl, if_pos hspill]
        exact (reads_inlineBodySpan hread).map
      · show (readInlineBody .construct ct body).map (·.1) = _
        rw [hread.run]
        rfl
    | false =>
      refine ⟨.value (oneNaN v), ?_, rfl⟩
      unfold readValueLazy
      refine (reads_readU8 0x00).bind ?_
      rw [if_pos rfl, if_neg (by rw [hspill]; exact Bool.false_ne_true)]
      exact hread.map
  | external =>
    obtain ⟨payload, hpayload, hback⟩ := valueFromPayload_valuePayload h hplan hfits
    rw [encodeDisposedValue, hpayload] at henc
    change (writeOverflowChain payload sealer fresh >>= _) = _ at henc
    cases hchain : writeOverflowChain payload sealer fresh with
    | error e =>
      rw [hchain] at henc
      cases henc
    | ok p =>
      obtain ⟨first, ovf'⟩ := p
      rw [hchain] at henc
      cases henc
      obtain ⟨hpoints, hread⟩ := readOverflowChain_of_pages hchain hfresh hblocks
      have hlen := hcounted.lt hplan hpayload (.inl (writable_of_fresh hchain hfresh))
      refine ⟨.unfetched (.external first payload.length), ?_, ?_⟩
      · unfold readValueLazy
        refine (reads_readU8 TAG_EXTERNAL).bind ?_
        rw [if_neg (by decide), if_neg (by decide), if_pos rfl]
        refine (reads_readBe (w := 4) hpoints.page).bind ((reads_readBe (w := 4) hlen).bind ?_)
        exact (reads_readPointerTag hpoints).map
      · show (readOverflowChain (sealer.readBody blocks) sealer.cap payload.length first >>= fun raw =>
          valueFromPayload ct raw) = _
        rw [hread]
        exact hback
  | inlineComp comp =>
    obtain ⟨hspill, hadopted, k, hroom⟩ := hplan
    obtain ⟨payload, hpayload, hback⟩ := valueFromPayload_valuePayload h hspill hfits
    obtain ⟨hcomp, -⟩ := hadopted.length_lt hpayload
    have hshort : comp.length < 2 ^ 16 := by
      have hbounds := sealer.cap_c_le
      unfold recordMax INLINE_COMP_OVERHEAD at hroom
      omega
    have hlen : payload.length < 2 ^ 32 := by
      apply hcounted.lt hspill hpayload (.inr ⟨comp, hadopted, _⟩)
      unfold Unwritable
      omega
    rw [encodeDisposedValue, hpayload] at henc
    cases henc
    refine ⟨.unfetched (.inlineComp comp payload.length), ?_, ?_⟩
    · unfold readValueLazy
      refine (reads_readU8 TAG_INLINE_COMP).bind ?_
      rw [if_neg (by decide), if_neg (by decide), if_neg (by decide), if_pos rfl]
      refine (reads_readBe (w := 4) hlen).bind ((reads_readBe (w := 2) hshort).bind ?_)
      exact (reads_take comp).map
    · show (Lz4.decompress comp payload.length >>= fun raw => valueFromPayload ct raw) = _
      rw [hcomp, Lz4.decompress_compress]
      exact hback
  | externalComp comp =>
    obtain ⟨hspill, hadopted⟩ := hplan
    obtain ⟨payload, hpayload, hback⟩ := valueFromPayload_valuePayload h hspill hfits
    obtain ⟨hcomp, hshort⟩ := hadopted.length_lt hpayload
    rw [encodeDisposedValue, hpayload] at henc
    change (writeOverflowChain comp sealer fresh >>= _) = _ at henc
    cases hchain : writeOverflowChain comp sealer fresh with
    | error e =>
      rw [hchain] at henc
      cases henc
    | ok p =>
      obtain ⟨first, ovf'⟩ := p
      rw [hchain] at henc
      cases henc
      obtain ⟨hpoints, hread⟩ := readOverflowChain_of_pages hchain hfresh hblocks
      have hlen := hcounted.lt hspill hpayload
        (.inr ⟨comp, hadopted, writable_of_fresh hchain hfresh⟩)
      refine ⟨.unfetched (.externalComp first comp.length payload.length), ?_, ?_⟩
      · unfold readValueLazy
        refine (reads_readU8 TAG_EXTERNAL_COMP).bind ?_
        rw [if_neg (by decide), if_neg (by decide), if_neg (by decide), if_neg (by decide), if_pos rfl]
        refine (reads_readBe (w := 4) hpoints.page).bind ?_
        refine (reads_readBe (w := 4) (hshort.trans hlen)).bind ((reads_readBe (w := 4) hlen).bind ?_)
        exact (reads_readPointerTag hpoints).map
      · show (readOverflowChain (sealer.readBody blocks) sealer.cap comp.length first >>= fun raw =>
          Lz4.decompress raw payload.length >>= fun raw => valueFromPayload ct raw) = _
        rw [hread]
        change (Lz4.decompress comp payload.length >>= fun raw => valueFromPayload ct raw) = _
        rw [hcomp, Lz4.decompress_compress]
        exact hback

mutual

theorem inlineFits_of_oneNaN (v : Value) (h : InlineFits (oneNaN v)) : InlineFits v := by
  match v with
  | .composite vals => exact allFit_of_oneNaN vals h
  | .array dims lbounds elements => exact allFit_of_oneNaN elements h
  | .text s | .bytea s | .json s => exact h
  | .null | .bool _ | .int _ | .decimal _ | .uuid _ | .timestamp _ | .timestamptz _ | .interval _
  | .float32 _ | .float64 _ | .date _ | .jsonb _ | .range _ | .jsonPath _ => exact trivial

theorem allFit_of_oneNaN (vals : List Value) (h : AllFit (allOneNaN vals)) : AllFit vals := by
  match vals with
  | [] => exact trivial
  | v :: vals => exact ⟨inlineFits_of_oneNaN v h.1, allFit_of_oneNaN vals h.2⟩

end

theorem inlineFits_of_readsBack
    (h : ReadsBack (encodeValue ct) (readInlineBody .construct ct) v) : InlineFits v := by
  obtain ⟨body, -, hread⟩ := h
  exact inlineFits_of_oneNaN v ((sound_readInlineBody .construct ct).value hread.run)

/-- A value is not read off a proper front of its payload. -/
theorem valueFromPayload_front {ct : ColType} {v : Value} (h : Storable ct v)
    (hspill : isSpillable ct) (hfits : InlineFits v) {front more : Bytes}
    (hpayload : valuePayload ct v = .ok (front ++ more)) (hlong : 2 ^ 16 ≤ (front ++ more).length)
    (hmore : more ≠ []) (w : Value) : valueFromPayload ct front ≠ .ok w := by
  have hbody := readsBack_value ct h hfits
  have hstring : ∀ s, front ++ more = s → s.length < 2 ^ 16 → False := by
    rintro s rfl hshort
    omega
  have hnone : ∀ {α : Type} {r : Cursor α} {x : α} {f : α × Bytes → Value} {P : α → Prop},
      Sound IsCorrupt r P → r (front ++ more) = .ok (x, []) → (r front).map f ≠ .ok w := by
    intro α r x f P hsound hwhole hfront
    cases hr : r front with
    | error e =>
      rw [hr] at hfront
      cases hfront
    | ok p => exact hsound.whole hwhole hmore hr
  have hinline : ∀ body, encodeValue ct v = .ok (0x00 :: body) →
      Reads (readInlineBody .construct ct) body (oneNaN v) →
      (encodeValue ct v).map (·.drop 1) = .ok (front ++ more) →
      (readInlineBody .construct ct front).map (·.1) ≠ .ok w := by
    intro body henc hread hdrop
    rw [henc] at hdrop
    obtain rfl : body = front ++ more := by
      cases hdrop
      rfl
    exact hnone (sound_readInlineBody .construct ct) hread.run
  cases ct with
  | scalar s =>
    cases h with
    | json h => exact (hstring _ (Except.ok.inj hpayload).symm hfits).elim
    | jsonb h =>
      have hread := (reads_decodeJsonbBody h).run
      rw [Except.ok.inj hpayload] at hread
      exact hnone (sound_decodeJsonbBody .construct) hread
    | keyed h hutf8 =>
      cases h <;> try exact absurd hspill (by decide)
      · exact (hstring _ (Except.ok.inj hpayload).symm hfits).elim
      · rename_i d hd
        have hread := (reads_decodeDecimalBody hd).run
        have hbytes : encodeDecimalBody d = front ++ more := Except.ok.inj hpayload
        rw [hbytes] at hread
        exact hnone (sound_decodeDecimalBody .construct) hread
      · exact (hstring _ (Except.ok.inj hpayload).symm hfits).elim
  | composite fields =>
    cases v <;> try exact h.elim
    obtain ⟨body, henc, hread⟩ := hbody
    exact hinline body henc hread hpayload
  | array elem =>
    cases v <;> try exact h.elim
    obtain ⟨body, henc, hread⟩ := hbody
    exact hinline body henc hread hpayload
  | range elem =>
    cases elem <;> try exact h.elim
    cases v <;> try exact h.elim
    obtain ⟨body, henc, hread⟩ := hbody
    exact hinline body henc hread hpayload

/-- A value is not read off what is left of a payload cut off at its length in 32 bits. -/
theorem not_valueFromPayload_cut {raw : Bytes}
    (h : Storable ct v) (hfits : InlineFits v) (hspill : isSpillable ct)
    (hpayload : valuePayload ct v = .ok payload) (hlong : 2 ^ 32 ≤ payload.length)
    (hcut : raw <+: payload) (hlen : raw.length = payload.length % 256 ^ 4) (w : Value) :
    valueFromPayload ct raw ≠ .ok w := by
  obtain ⟨more, hmore⟩ := hcut
  apply @valueFromPayload_front _ _ h hspill hfits _ more
  · rw [hmore]
    exact hpayload
  · rw [hmore]
    omega
  · rintro rfl
    rw [List.append_nil] at hmore
    rw [hmore] at hlen
    omega

/-- In a plaintext file a chain is always written. -/
theorem sealChain_plain (hplain : sealer.codec = none) (parts : List (ℕ × Bytes))
    (hparts : ∀ p ∈ parts, p.2.length ≤ sealer.cap.chain) :
    ∃ first ovf, sealChain sealer parts = .ok (first, ovf) := by
  induction parts with
  | nil => exact ⟨_, _, rfl⟩
  | cons part parts ih =>
    obtain ⟨index, chunk⟩ := part
    obtain ⟨next, ovf, hrest⟩ := ih fun p hp => hparts p (List.mem_cons_of_mem _ hp)
    have hchunk : chunk.length ≤ sealer.cap.chain := hparts (index, chunk) List.mem_cons_self
    have hroom : ¬sealer.ps < PAGE_HEADER + chunk.length := by
      have hvalid := sealer.valid
      simp only [pageSizeValid, Bool.and_eq_true, decide_eq_true_eq] at hvalid
      have hcap : sealer.cap.chain = sealer.ps - PAGE_HEADER := by
        unfold Sealer.cap
        rw [hplain]
        rfl
      rw [hcap] at hchunk
      unfold PAGE_HEADER at *
      omega
    refine ⟨⟨index, NO_TAG⟩, ovf ++ [(index, stampCrc (layPage sealer.ps PAGE_OVERFLOW 0 chunk.length
      next.page chunk))], ?_⟩
    rw [sealChain, hrest]
    show (sealer.page index PAGE_OVERFLOW 0 chunk.length next chunk >>= _) = _
    unfold Sealer.page
    rw [hplain]
    dsimp only
    rw [if_neg hroom]
    rfl

/-- The number of slabs. -/
theorem chunks_length {slab : ℕ} (payload : Bytes) {n : ℕ}
    (hn : payload.length ≤ n * slab) : (chunks slab payload).length ≤ n := by
  induction n generalizing payload with
  | zero =>
    obtain rfl : payload = [] := List.eq_nil_of_length_eq_zero (by omega)
    rw [chunks, dif_pos (.inr rfl)]
    exact le_rfl
  | succ n ih =>
    rw [chunks]
    split
    · exact Nat.zero_le _
    · have := ih (payload.drop slab) (by
        rw [List.length_drop]
        rw [Nat.succ_mul] at hn
        omega)
      exact Nat.succ_le_succ this

/-- A plaintext file of the largest pages. -/
def largestPages : Sealer where
  ps := 2 ^ 16
  codec := none
  valid := by decide
  room := nofun

theorem reads_readBe_mod (w n : ℕ) : Reads (readBe w) (beBytes w n) (n % 256 ^ w) := by
  have := Reads.map (f := beNat) (reads_take_of (beBytes_length w n))
  rwa [beNat_beBytes] at this

/-- The blocks that a list of pages stores. -/
def storedBlocks (ovf : List (ℕ × Bytes)) (i : ℕ) : Except Failure Bytes :=
  match ovf.lookup i with
  | some b => .ok b
  | none => .error .panic

theorem storedBlocks_of_mem (h : (ovf.map (·.1)).Nodup) :
    ∀ p ∈ ovf, storedBlocks ovf p.1 = .ok p.2 := by
  intro p hp
  suffices hlookup : ovf.lookup p.1 = some p.2 by rw [storedBlocks, hlookup]
  induction ovf with
  | nil => cases hp
  | cons q ovf ih =>
    obtain ⟨i, b⟩ := q
    rw [List.map_cons, List.nodup_cons] at h
    obtain rfl | hrest := List.mem_cons.mp hp
    · exact List.lookup_cons_self
    · have hne : (p.1 == i) = false := by
        rw [beq_eq_false_iff_ne]
        rintro rfl
        exact h.1 (List.mem_map.mpr ⟨p, hrest, rfl⟩)
      rw [List.lookup_cons, hne]
      exact ih h.2 hrest

/-- Bytes that a file has pages for are written to a plaintext one of the largest pages. -/
theorem exists_chain {bytes : Bytes} (h : ¬Unwritable bytes) :
    ∃ first ovf, writeOverflowChain bytes largestPages (· + 1) = .ok (first, ovf) ∧
      Fresh (ovf.map (·.1)) := by
  have hcount : (chunks largestPages.cap.chain bytes).length ≤ 2 ^ 32 - 1 :=
    chunks_length bytes (not_lt.mp h)
  obtain ⟨first, ovf, hchain⟩ : ∃ first ovf,
      writeOverflowChain bytes largestPages (· + 1) = .ok (first, ovf) :=
    sealChain_plain rfl _ fun p hp => (mem_chunks (List.of_mem_zip hp).2).2
  have hpages := writeOverflowChain_pages hchain
  have hmem : ∀ i ∈ ovf.map (·.1), i ∈ chainPages largestPages (· + 1) bytes := by
    intro i hi
    rw [← hpages]
    exact List.mem_reverse.mpr hi
  have hnodup : (chainPages largestPages (· + 1) bytes).Nodup :=
    List.nodup_range.map fun _ _ => Nat.succ.inj
  refine ⟨first, ovf, hchain, List.nodup_reverse.mp (hpages ▸ hnodup), fun i hi => ?_⟩
  obtain ⟨j, hj, rfl⟩ := List.mem_map.mp (hmem i hi)
  have := List.mem_range.mp hj
  omega

/-- A payload of 4 GiB or more is cut off at what is left of its length in 32 bits. -/
theorem not_resolves_external (h : Storable ct v)
    (hfits : InlineFits v) (hspill : isSpillable ct) (hpayload : valuePayload ct v = .ok payload)
    (hlong : 2 ^ 32 ≤ payload.length) (hroom : ¬Unwritable payload) : ¬Resolves ct v := by
  intro hres
  obtain ⟨first, ovf, hchain, hfresh⟩ := exists_chain hroom
  have hblocks := storedBlocks_of_mem hfresh.nodup
  obtain ⟨stored, hread, hback⟩ := hres largestPages (· + 1) .external _ ovf hspill
    (show encodeDisposedValue ct v .external largestPages (· + 1) = _ by
      rw [encodeDisposedValue, hpayload]
      change (writeOverflowChain payload largestPages (· + 1) >>= _) = _
      rw [hchain]
      rfl) hfresh (storedBlocks ovf) hblocks
  obtain ⟨hpoints, hgathered⟩ := readOverflowChain_gather hchain hfresh hblocks
  have hlazy : Reads (readValueLazy ct largestPages.cap)
      (TAG_EXTERNAL :: (beBytes 4 first.page ++ (beBytes 4 payload.length ++
        first.tag.take largestPages.cap.tag)))
      (.unfetched (.external first (payload.length % 256 ^ 4))) := by
    unfold readValueLazy
    refine (reads_readU8 TAG_EXTERNAL).bind ?_
    rw [if_neg (by decide), if_neg (by decide), if_pos rfl]
    refine (reads_readBe (w := 4) hpoints.page).bind ((reads_readBe_mod 4 _).bind ?_)
    exact (reads_readPointerTag hpoints).map
  rw [Reads.unique hread hlazy] at hback
  change (readOverflowChain (largestPages.readBody (storedBlocks ovf)) largestPages.cap
    (payload.length % 256 ^ 4) first >>= fun raw => valueFromPayload ct raw) = _ at hback
  rw [hgathered] at hback
  cases hgather : gather (payload.length % 256 ^ 4) [] (chunks largestPages.cap.chain payload) with
  | error e =>
    rw [hgather] at hback
    cases hback
  | ok raw =>
    rw [hgather] at hback
    obtain ⟨hlen, hcut⟩ := gather_front (Nat.zero_le _) hgather
    rw [List.nil_append, chunks_flatten largestPages.chain_bounds.1] at hcut
    exact not_valueFromPayload_cut h hfits hspill hpayload hlong hcut hlen _ hback

/-- A block of so long a payload is not decompressed to what is left of the length. -/
theorem not_resolves_externalComp {comp : Bytes}
    (h : Storable ct v) (hfits : InlineFits v) (hspill : isSpillable ct) (hpayload : valuePayload ct v = .ok payload)
    (hlong : 2 ^ 32 ≤ payload.length) (hadopted : Adopted ct v comp) (hroom : ¬Unwritable comp) :
    ¬Resolves ct v := by
  intro hres
  obtain ⟨first, ovf, hchain, hfresh⟩ := exists_chain hroom
  have hblocks := storedBlocks_of_mem hfresh.nodup
  obtain ⟨stored, hread, hback⟩ := hres largestPages (· + 1) (.externalComp comp) _ ovf
    ⟨hspill, hadopted⟩
    (show encodeDisposedValue ct v (.externalComp comp) largestPages (· + 1) = _ by
      rw [encodeDisposedValue, hpayload]
      change (writeOverflowChain comp largestPages (· + 1) >>= _) = _
      rw [hchain]
      rfl) hfresh (storedBlocks ovf) hblocks
  obtain ⟨hpoints, hgathered⟩ := readOverflowChain_gather hchain hfresh hblocks
  have hlazy : Reads (readValueLazy ct largestPages.cap)
      (TAG_EXTERNAL_COMP :: (beBytes 4 first.page ++ (beBytes 4 comp.length ++
        (beBytes 4 payload.length ++ first.tag.take largestPages.cap.tag))))
      (.unfetched (.externalComp first (comp.length % 256 ^ 4) (payload.length % 256 ^ 4))) := by
    unfold readValueLazy
    refine (reads_readU8 TAG_EXTERNAL_COMP).bind ?_
    rw [if_neg (by decide), if_neg (by decide), if_neg (by decide), if_neg (by decide), if_pos rfl]
    refine (reads_readBe (w := 4) hpoints.page).bind ?_
    refine (reads_readBe_mod 4 _).bind ((reads_readBe_mod 4 _).bind ?_)
    exact (reads_readPointerTag hpoints).map
  rw [Reads.unique hread hlazy] at hback
  change (readOverflowChain (largestPages.readBody (storedBlocks ovf)) largestPages.cap
    (comp.length % 256 ^ 4) first >>= fun raw => Lz4.decompress raw (payload.length % 256 ^ 4) >>=
      fun raw => valueFromPayload ct raw) = _ at hback
  rw [hgathered] at hback
  cases hgather : gather (comp.length % 256 ^ 4) [] (chunks largestPages.cap.chain comp) with
  | error e =>
    rw [hgather] at hback
    cases hback
  | ok block =>
    rw [hgather] at hback
    change (Lz4.decompress block (payload.length % 256 ^ 4) >>= fun raw => valueFromPayload ct raw)
      = _ at hback
    cases hraw : Lz4.decompress block (payload.length % 256 ^ 4) with
    | error e =>
      rw [hraw] at hback
      cases hback
    | ok raw =>
      rw [hraw] at hback
      have hfront := (gather_front (Nat.zero_le _) hgather).2
      rw [List.nil_append, chunks_flatten largestPages.chain_bounds.1,
        (hadopted.length_lt hpayload).1] at hfront
      obtain ⟨hcut, hlen⟩ := Lz4.decompress_front hfront hraw
      exact not_valueFromPayload_cut h hfits hspill hpayload hlong hcut hlen _ hback

/-- In any form that is planned for it, a value comes back on exactly the condition that its length
    is counted. -/
theorem resolves_iff (h : Storable ct v) (hfits : InlineFits v) :
    Resolves ct v ↔ PayloadCounted ct v := by
  refine ⟨fun hres hspill payload hpayload => ?_, resolves_of_fits h hfits⟩
  by_contra hout
  rw [not_or, not_lt] at hout
  obtain ⟨hlong, hroom⟩ := hout
  by_cases hun : Unwritable payload
  · refine hroom ⟨hun, fun comp hadopted => ?_⟩
    by_contra hcomp
    exact not_resolves_externalComp h hfits hspill hpayload hlong hadopted hcomp hres
  · exact not_resolves_external h hfits hspill hpayload hlong hun hres

/-- The stored round trip of a value of any column type holds on exactly the condition that every
    string in it is shorter than 2¹⁶ bytes and its payload shorter than 2³². -/
theorem stored_value_round_trips_iff (ct : ColType) (v : Value) (h : Storable ct v) :
    RoundTrips ct v ↔ InlineFits v ∧ PayloadCounted ct v := by
  constructor
  · intro hround
    have hfits := inlineFits_of_readsBack hround.construct
    exact ⟨hfits, (resolves_iff h hfits).mp hround.deferred⟩
  · rintro ⟨hfits, hcount⟩
    exact ⟨readsBack_value ct h hfits, inStep_readInlineBody ct, (resolves_iff h hfits).mpr hcount,
      fun mode => (sound_readInlineBody mode ct).mono fun _ _ => trivial⟩

/-- An array of one string of zeros. -/
def zerosArray (n : ℕ) : Value := .array [1] [1] [.bytea (List.replicate n 0)]

theorem storable_zerosArray (n : ℕ) : Storable (.array (.scalar .bytea)) (zerosArray n) := by
  refine ⟨⟨rfl, nofun, fun _ => by decide, fun _ => rfl, show 1 < 2 ^ 64 by decide, by decide⟩,
    fun e he _ => ?_⟩
  obtain rfl := List.mem_singleton.mp he
  exact .keyed (.bytea _) nofun

/-- A nested string of 2¹⁶ bytes is stored with the length zero. -/
theorem nested_string_of_65536_bytes :
    Storable (.array (.scalar .bytea)) (zerosArray 65536) ∧
      ¬RoundTrips (.array (.scalar .bytea)) (zerosArray 65536) := by
  refine ⟨storable_zerosArray _, fun hround => ?_⟩
  have hfits := (inlineFits_of_readsBack hround.construct).1
  unfold InlineFits at hfits
  rw [List.length_replicate] at hfits
  omega

theorem stored_value_round_trips_iff_zeros :
    Storable (.array (.scalar .bytea)) (zerosArray 3) ∧
      (RoundTrips (.array (.scalar .bytea)) (zerosArray 3) ↔
        InlineFits (zerosArray 3) ∧ PayloadCounted (.array (.scalar .bytea)) (zerosArray 3)) :=
  ⟨storable_zerosArray 3, stored_value_round_trips_iff _ _ (storable_zerosArray 3)⟩

end Jed.Codec
