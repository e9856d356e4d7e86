import Jed.Codec.Page

/-!
# Overflow chains

A payload too large for its record is cut into slabs, each on a page that names the next one
(`format.rs:4312-4340`), and gathered again by following the names (`format.rs:7710-7736`).
-/

namespace Jed.Codec

open Key PMap

/-- `payload.chunks(slab)`. -/
def chunks (slab : Nat) (payload : Bytes) : List Bytes :=
  if _h : slab = 0 ∨ payload = [] then []
  else payload.take slab :: chunks slab (payload.drop slab)
termination_by payload.length
decreasing_by
  have := List.length_pos_iff.mpr (not_or.mp _h).2
  rw [List.length_drop]
  omega

/-- The pages of a chain, the last sealed first so that each binds its successor. -/
def sealChain (sealer : Sealer) : List (Nat × Bytes) → Except Failure (PageRef × List (Nat × Bytes))
  | [] => .ok (PageRef.NONE, [])
  | (index, chunk) :: rest => do
    let (next, ovf) ← sealChain sealer rest
    let (bytes, tag) ← sealer.page index PAGE_OVERFLOW 0 chunk.length next chunk
    return (⟨index, tag⟩, ovf ++ [(index, bytes)])

attribute [grind =] sealChain

/-- `write_overflow_chain` (`format.rs:4312-4338`): `fresh` are the pages that `take` yields. -/
def writeOverflowChain (payload : Bytes) (sealer : Sealer) (fresh : Nat → Nat) :
    Except Failure (PageRef × List (Nat × Bytes)) :=
  let parts := chunks sealer.cap.chain payload
  sealChain sealer (((List.range parts.length).map fresh).zip parts)

/-- The loop of `read_overflow_chain` (`format.rs:7710-7736`). -/
def readOverflowFrom (fetch : PageRef → Except Failure Bytes) (cap : Cap) (len : Nat) (p : PageRef)
    (seen : List Nat) (out : Bytes) : Except Failure Bytes :=
  if out.length < len then
    if p.page = 0 then .error (dataCorrupted "overflow chain ended before the value length")
    else if p.page ∈ seen then .error (dataCorrupted "overflow chain revisits a page")
    else do
      let block ← fetch p
      let page ← parsePage block
      if page.pageType ≠ PAGE_OVERFLOW then
        throw (dataCorrupted "expected an overflow page")
      else
        let (next, slab) ← chainContent page cap
        let take := page.itemCount
        if _h : take = 0 ∨ slab.length < take ∨ len < out.length + take then
          throw (dataCorrupted "overflow page slab out of range")
        else readOverflowFrom fetch cap len next (p.page :: seen) (out ++ slab.take take)
  else .ok out
termination_by len - out.length
decreasing_by
  rw [List.length_append, List.length_take]
  omega

attribute [grind =] readOverflowFrom

/-- `read_overflow_chain`. -/
def readOverflowChain (fetch : PageRef → Except Failure Bytes) (cap : Cap) (len : Nat)
    (first : PageRef) : Except Failure Bytes := readOverflowFrom fetch cap len first [] []

theorem chunks_flatten {slab : ℕ} (h : 0 < slab) (payload : Bytes) :
    (chunks slab payload).flatten = payload := by
  fun_induction chunks slab payload with
  | case1 payload hend =>
    obtain hzero | hnil := hend
    · omega
    · rw [hnil]
      rfl
  | case2 payload hmore ih => rw [List.flatten_cons, ih, List.take_append_drop]

theorem mem_chunks {slab : ℕ} {payload chunk : Bytes} (h : chunk ∈ chunks slab payload) :
    0 < chunk.length ∧ chunk.length ≤ slab := by
  fun_induction chunks slab payload with
  | case1 payload hend => cases h
  | case2 payload hmore ih =>
    obtain rfl | hrest := List.mem_cons.mp h
    · have := List.length_pos_iff.mpr (not_or.mp hmore).2
      rw [List.length_take]
      omega
    · exact ih hrest

theorem length_le_chunks {slab : ℕ} (h : 0 < slab) (payload : Bytes) :
    payload.length ≤ (chunks slab payload).length * slab := by
  fun_induction chunks slab payload with
  | case1 payload hend =>
    obtain hzero | hnil := hend
    · omega
    · rw [hnil]
      exact Nat.zero_le _
  | case2 payload hmore ih =>
    rw [List.length_drop] at ih
    rw [List.length_cons, Nat.succ_mul]
    omega

/-- Pages that a chain can be written to: numbered from one in 32 bits, each once. -/
structure Fresh (indices : List ℕ) : Prop where
  nodup : indices.Nodup
  bounds : ∀ i ∈ indices, i ≠ 0 ∧ i < 2 ^ 32

/-- What is gathered of slabs in order until there are `len` bytes. -/
def gather (len : Nat) (out : Bytes) : List Bytes → Except Failure Bytes
  | [] =>
    if out.length < len then
      .error (dataCorrupted "overflow chain ended before the value length")
    else .ok out
  | slab :: slabs =>
    if out.length < len then
      if len < out.length + slab.length then
        .error (dataCorrupted "overflow page slab out of range")
      else gather len (out ++ slab) slabs
    else .ok out

attribute [grind =] gather

/-- What a sealed chain starts with is a pointer, and its slabs are read off it in order. -/
theorem readOverflowFrom_sealChain {sealer : Sealer} {parts : List (ℕ × Bytes)} {first : PageRef}
    {ovf : List (ℕ × Bytes)} (h : sealChain sealer parts = .ok (first, ovf))
    (hfresh : Fresh (parts.map (·.1))) (hparts : ∀ p ∈ parts, 0 < p.2.length ∧ p.2.length < 2 ^ 32)
    {blocks : ℕ → Except Failure Bytes} (hblocks : ∀ p ∈ ovf, blocks p.1 = .ok p.2) :
    sealer.Points first ∧ ∀ (len : ℕ) (seen : List ℕ) (out : Bytes),
      (∀ i ∈ seen, i ∉ parts.map (·.1)) →
      readOverflowFrom (sealer.readBody blocks) sealer.cap len first seen out
        = gather len out (parts.map (·.2)) := by
  induction parts generalizing first ovf with
  | nil =>
    cases h
    refine ⟨sealer.points_none, fun len seen out _ => ?_⟩
    rw [readOverflowFrom, List.map_nil, gather]
    split
    · rw [if_pos (show PageRef.NONE.page = 0 from rfl)]
    · rfl
  | cons part parts ih =>
    obtain ⟨index, chunk⟩ := part
    rw [sealChain] at h
    cases hrest : sealChain sealer parts with
    | error e =>
      rw [hrest] at h
      cases h
    | ok p =>
      obtain ⟨next, ovf'⟩ := p
      rw [hrest] at h
      change (sealer.page index PAGE_OVERFLOW 0 chunk.length next chunk >>= fun q =>
        Except.ok (PageRef.mk index q.2, ovf' ++ [(index, q.1)])) = _ at h
      cases hpage : sealer.page index PAGE_OVERFLOW 0 chunk.length next chunk with
      | error e =>
        rw [hpage] at h
        cases h
      | ok q =>
        obtain ⟨bytes, tag⟩ := q
        rw [hpage] at h
        cases h
        have hnodup := List.nodup_cons.mp hfresh.nodup
        have hindex := hfresh.bounds index List.mem_cons_self
        have hchunk : 0 < chunk.length ∧ chunk.length < 2 ^ 32 :=
          hparts (index, chunk) List.mem_cons_self
        obtain ⟨hnext, hread⟩ := ih hrest
          ⟨hnodup.2, fun i hi => hfresh.bounds i (List.mem_cons_of_mem _ hi)⟩
          (fun p hp => hparts p (List.mem_cons_of_mem _ hp))
          (fun p hp => hblocks p (List.mem_append_left _ hp))
        have hblock : blocks index = .ok bytes :=
          hblocks (index, bytes) (List.mem_append_right _ List.mem_cons_self)
        obtain ⟨htag, hplain, block, page, padding, hbody, hparse, htype, hitems, hcontent⟩ :=
          Sealer.readBody_page hpage (.inr (.inl rfl)) hchunk.2 hnext hblock
        refine ⟨⟨hindex.2, htag, hplain, fun hzero => absurd hzero hindex.1⟩,
          fun len seen out hseen => ?_⟩
        have hnew : index ∉ seen := fun hmem => hseen index hmem List.mem_cons_self
        have htake : (chunk ++ padding).take chunk.length = chunk := List.take_left
        have hgo := hread len (index :: seen) (out ++ chunk) (by
          intro i hi
          obtain rfl | hi := List.mem_cons.mp hi
          · exact hnodup.1
          · exact fun hmem => hseen i hi (List.mem_cons_of_mem _ hmem))
        rw [readOverflowFrom, List.map_cons, gather]
        by_cases hmore : out.length < len
        · rw [if_pos hmore, if_pos hmore, if_neg hindex.1, if_neg hnew, hbody]
          change (parsePage block >>= _) = _
          rw [hparse]
          change (if page.pageType ≠ PAGE_OVERFLOW then _ else _) = _
          rw [if_neg (fun hne => hne htype), hcontent]
          change (if _h : page.itemCount = 0 ∨ _ then _ else _) = _
          rw [hitems]
          by_cases hover : len < out.length + chunk.length
          · rw [dif_pos (.inr (.inr hover)), if_pos hover]
            rfl
          · have hrange : ¬(chunk.length = 0 ∨ (chunk ++ padding).length < chunk.length ∨
                len < out.length + chunk.length) := by
              rw [List.length_append]
              omega
            rw [dif_neg hrange, if_neg hover, htake]
            exact hgo
        · rw [if_neg hmore, if_neg hmore]

/-- Slabs of as many bytes are all gathered. -/
theorem gather_all (slabs : List Bytes) (out : Bytes) (h : ∀ s ∈ slabs, s ≠ []) :
    gather (out.length + slabs.flatten.length) out slabs = .ok (out ++ slabs.flatten) := by
  induction slabs generalizing out with
  | nil =>
    rw [gather, if_neg (by simp), List.flatten_nil, List.append_nil]
  | cons slab slabs ih =>
    have hslab := List.length_pos_iff.mpr (h slab List.mem_cons_self)
    have hgo := ih (out ++ slab) fun s hs => h s (List.mem_cons_of_mem _ hs)
    rw [List.length_append] at hgo
    rw [List.flatten_cons, List.length_append, gather, if_pos (by omega), if_neg (by omega),
      ← Nat.add_assoc, hgo, List.append_assoc]

/-- What is gathered is a front of the slabs, of the length that was asked for. -/
theorem gather_front {len : ℕ} {slabs : List Bytes} {out raw : Bytes} (hout : out.length ≤ len)
    (h : gather len out slabs = .ok raw) : raw.length = len ∧ raw <+: out ++ slabs.flatten := by
  induction slabs generalizing out with
  | nil =>
    rw [gather] at h
    split at h
    · cases h
    · cases h
      rw [List.flatten_nil, List.append_nil]
      exact ⟨by omega, List.prefix_refl _⟩
  | cons slab slabs ih =>
    rw [gather] at h
    split at h
    · split at h
      · cases h
      · rw [List.flatten_cons, ← List.append_assoc]
        apply ih _ h
        rw [List.length_append]
        omega
    · cases h
      exact ⟨by omega, List.prefix_append _ _⟩

/-- The pages a chain of a payload is written to. -/
def chainPages (sealer : Sealer) (fresh : ℕ → ℕ) (payload : Bytes) : List ℕ :=
  (List.range (chunks sealer.cap.chain payload).length).map fresh

/-- A chain page holds something, and no more than a page. -/
theorem Sealer.chain_bounds (sealer : Sealer) :
    0 < sealer.cap.chain ∧ sealer.cap.chain < 2 ^ 32 := by
  have hvalid := sealer.valid
  simp only [pageSizeValid, Bool.and_eq_true, decide_eq_true_eq] at hvalid
  have hroom := sealer.room
  unfold Sealer.cap Cap.chain
  cases hcodec : sealer.codec with
  | none =>
    have hcap : Cap.of sealer.ps (none : Option PageCodec).isSome = ⟨sealer.ps - 16, 0⟩ := rfl
    rw [hcap]
    dsimp only
    omega
  | some codec =>
    rw [hcodec] at hroom
    have hlarge := hroom rfl
    unfold MIN_ENCRYPTED_PAGE_SIZE at hlarge
    have hcap : Cap.of sealer.ps (some codec).isSome = ⟨sealer.ps - 16 - 40, 16⟩ := rfl
    rw [hcap]
    dsimp only
    omega

/-- A page is of 2¹⁶ bytes at most. -/
theorem Sealer.cap_c_le (sealer : Sealer) : sealer.cap.c ≤ 2 ^ 16 - 16 := by
  have hvalid := sealer.valid
  simp only [pageSizeValid, Bool.and_eq_true, decide_eq_true_eq] at hvalid
  unfold Sealer.cap
  cases hcodec : sealer.codec with
  | none =>
    have hcap : Cap.of sealer.ps (none : Option PageCodec).isSome = ⟨sealer.ps - 16, 0⟩ := rfl
    rw [hcap]
    dsimp only
    omega
  | some codec =>
    have hcap : Cap.of sealer.ps (some codec).isSome = ⟨sealer.ps - 16 - 40, 16⟩ := rfl
    rw [hcap]
    dsimp only
    omega

/-- A written chain, read for any length: a front of its slabs, and all of the payload for its own
    length. -/
theorem readOverflowChain_write {sealer : Sealer} {payload : Bytes} {fresh : ℕ → ℕ}
    {first : PageRef} {ovf : List (ℕ × Bytes)}
    (h : writeOverflowChain payload sealer fresh = .ok (first, ovf))
    (hfresh : Fresh (chainPages sealer fresh payload)) {blocks : ℕ → Except Failure Bytes}
    (hblocks : ∀ p ∈ ovf, blocks p.1 = .ok p.2) :
    sealer.Points first ∧ ∀ len, readOverflowChain (sealer.readBody blocks) sealer.cap len first
      = gather len [] (chunks sealer.cap.chain payload) := by
  have hlen : ((List.range (chunks sealer.cap.chain payload).length).map fresh).length
      = (chunks sealer.cap.chain payload).length := by
    rw [List.length_map, List.length_range]
  have hbounds := sealer.chain_bounds
  have hpages : Fresh ((((List.range (chunks sealer.cap.chain payload).length).map fresh).zip
      (chunks sealer.cap.chain payload)).map (·.1)) := by
    rw [List.map_fst_zip hlen.le]
    exact hfresh
  have hread := readOverflowFrom_sealChain h hpages (fun p hp => by
    have := mem_chunks (List.of_mem_zip hp).2
    omega) hblocks
  refine ⟨hread.1, fun len => ?_⟩
  rw [readOverflowChain, hread.2 len [] [] (fun i hi => nomatch hi), List.map_snd_zip hlen.ge]

end Jed.Codec
