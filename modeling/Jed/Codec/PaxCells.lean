import Jed.Codec.PaxValues

/-!
# The cells of a leaf

What the encoder of a leaf writes of a resident or a deferred value, on pages that are there when the leaf
is read: the value in the form of its plan.
-/

namespace Jed.Codec

open Readers Key PMap Results

/-- The pages that were written, as a store holds them. -/
structure Stood (blocks : ℕ → Except Failure Bytes) (w : Written) : Prop where
  fresh : Fresh (w.ovf.map (·.1))
  held : ∀ p ∈ w.ovf, blocks p.1 = .ok p.2

theorem Stood.of_prefix {blocks : ℕ → Except Failure Bytes} {w w' : Written} (h : Stood blocks w')
    (hpre : w.ovf <+: w'.ovf) : Stood blocks w where
  fresh :=
    { nodup := h.fresh.nodup.sublist (hpre.sublist.map _)
      bounds := fun i hi => h.fresh.bounds i ((hpre.sublist.map _).subset hi) }
  held := fun p hp => h.held p (hpre.subset hp)

/-- What is read of a chain of the source is there to be read of the store. -/
def ChainSource.StandsIn (src : ChainSource) (sealer : Sealer) (blocks : ℕ → Except Failure Bytes) : Prop :=
  src.share = true → ∀ first len raw, src.readChain first len = .ok raw →
    readOverflowChain (sealer.readBody blocks) sealer.cap len first = .ok raw

section Chains

variable {src : ChainSource} {sealer : Sealer} {fresh : ℕ → ℕ} {blocks : ℕ → Except Failure Bytes}
  {first first' : PageRef} {bytes : Bytes} {w w' : Written}

theorem writeChain_ovf (h : writeChain sealer fresh bytes w = .ok (first, w')) :
    ∃ ovf, writeOverflowChain bytes sealer (fun i => fresh (w.taken + i)) = .ok (first, ovf) ∧
      w'.ovf = w.ovf ++ ovf := by
  obtain ⟨⟨first', ovf⟩, hchain, h⟩ := bind_eq_ok.mp h
  cases h
  exact ⟨ovf, hchain, rfl⟩

theorem writeChain_prefix (h : writeChain sealer fresh bytes w = .ok (first, w')) : w.ovf <+: w'.ovf := by
  obtain ⟨ovf, -, hovf⟩ := writeChain_ovf h
  exact hovf ▸ List.prefix_append _ _

/-- A chain that was written is one of the store. -/
theorem chained_of_written (h : writeChain sealer fresh bytes w = .ok (first, w'))
    (hstood : Stood blocks w') : Chained sealer blocks first bytes := by
  obtain ⟨ovf, hchain, hovf⟩ := writeChain_ovf h
  have hsub : ovf <:+ w'.ovf := hovf ▸ List.suffix_append _ _
  have hfresh : Fresh (ovf.map (·.1)) :=
    { nodup := hstood.fresh.nodup.sublist (hsub.sublist.map _)
      bounds := fun i hi => hstood.fresh.bounds i ((hsub.sublist.map _).subset hi) }
  have hblocks : ∀ p ∈ ovf, blocks p.1 = .ok p.2 := fun p hp => hstood.held p (hsub.subset hp)
  obtain ⟨hpoints, hwhole⟩ := readOverflowChain_of_pages hchain hfresh hblocks
  refine ⟨hpoints, hwhole, .inr fun len raw hraw => ?_⟩
  rw [(readOverflowChain_gather hchain hfresh hblocks).2] at hraw
  have hfront := (gather_front (Nat.zero_le _) hraw).2
  rwa [List.nil_append, chunks_flatten sealer.chain_bounds.1] at hfront

theorem keepChain_prefix {stored : ℕ} (h : src.keepChain sealer fresh first stored w = .ok (first', w')) :
    w.ovf <+: w'.ovf := by
  unfold ChainSource.keepChain at h
  split at h
  · cases h
    exact List.prefix_refl _
  · obtain ⟨raw, -, h⟩ := bind_eq_ok.mp h
    exact writeChain_prefix h

/-- So is one that was kept. -/
theorem chained_of_kept (hkept : src.StandsIn sealer blocks) (hread : src.readChain first bytes.length = .ok bytes)
    (hshort : bytes.length < 2 ^ 32) (hpoints : src.share = true → sealer.Points first)
    (h : src.keepChain sealer fresh first bytes.length w = .ok (first', w')) (hstood : Stood blocks w') :
    Chained sealer blocks first' bytes := by
  unfold ChainSource.keepChain at h
  by_cases hshare : src.share = true
  · rw [if_pos hshare] at h
    cases h
    exact ⟨hpoints hshare, hkept hshare _ _ _ hread, .inl hshort⟩
  · rw [if_neg hshare] at h
    obtain ⟨raw, hraw, h⟩ := bind_eq_ok.mp h
    cases hread.symm.trans hraw
    exact chained_of_written h hstood

end Chains

/-- The chain of a deferred value. -/
def Unfetched.chain? : Unfetched → Option PageRef
  | .external first _ | .externalComp first _ _ => some first
  | _ => none

/-- A value as it is deferred in a row: it resolves in the source, its chain is one of the file that is
    written if it is to stay where it is, and a block was kept for being shorter. -/
structure Deferral (src : ChainSource) (sealer : Sealer) (ct : ColType) (v : Value) (u : Unfetched) :
    Prop where
  form : StoredForm src ct v u
  back : src.residentValue ct (.unfetched u) = .ok (oneNaN v)
  points : src.share = true → ∀ first, u.chain? = some first → sealer.Points first
  shorter : ∀ first stored raw, u = .externalComp first stored raw → ∀ payload,
    valuePayload ct v = .ok payload → (Lz4.compress payload).length < payload.length

/-- What a row holds, and the value that it stands for. -/
inductive CellOf (src : ChainSource) (sealer : Sealer) (ct : ColType) : Stored → Value → Prop where
  | null : CellOf src sealer ct (.value .null) .null
  | resident {v : Value} (h : Storable ct v) : CellOf src sealer ct (.value v) v
  | deferred {v : Value} {u : Unfetched} (h : Storable ct v) (hspill : isSpillable ct = true)
      (hdefer : Deferral src sealer ct v u) : CellOf src sealer ct (.unfetched u) v

section Deferred

variable {src : ChainSource} {sealer : Sealer} {ct : ColType} {v : Value} {u : Unfetched}

theorem Deferral.returns (hdefer : Deferral src sealer ct v u) (h : Storable ct v)
    (hspill : isSpillable ct = true) (hlarge : u.isLarge = true) : Returns ct v := by
  obtain ⟨payload, raw, hpayload, -, hfront, hlen, hback⟩ := hdefer.form.resolves hlarge hdefer.back
  exact returns_of_front h hspill hpayload hfront hlen hback

theorem Deferral.paging (hdefer : Deferral src sealer ct v u) :
    ∃ paging, src.paging = some paging ∧
      resolveUnfetched ct u paging.fetch paging.cap = .ok (oneNaN v) ∧
      ∀ first len, src.readChain first len = readOverflowChain paging.fetch paging.cap len first := by
  have hback := hdefer.back
  unfold ChainSource.residentValue at hback
  cases hpaging : src.paging with
  | none =>
    rw [hpaging] at hback
    cases hback
  | some paging =>
    rw [hpaging] at hback
    refine ⟨paging, rfl, hback, fun first len => ?_⟩
    unfold ChainSource.readChain
    rw [hpaging]

/-- The chain of a deferred payload is read whole. -/
theorem Deferral.external {first : PageRef} {len : ℕ} (h : Storable ct v) (hspill : isSpillable ct = true)
    (hdefer : Deferral src sealer ct v (.external first len)) :
    ∃ payload, valuePayload ct v = .ok payload ∧ len = payload.length ∧ payload.length < 2 ^ 32 ∧
      src.readChain first payload.length = .ok payload := by
  have hreturns := hdefer.returns h hspill rfl
  obtain ⟨paging, -, hres, hreads⟩ := hdefer.paging
  obtain ⟨raw, hraw, -⟩ := bind_eq_ok.mp hres
  rw [← hreads] at hraw
  have hform := hdefer.form
  cases hform with
  | @external payload _ hpayload hchain =>
    have hcounted := hreturns.counted hspill payload hpayload
    rw [Nat.mod_eq_of_lt hcounted] at hraw ⊢
    have hlen := ChainSource.readChain_length hraw
    have heq := (hchain.front _ _ hraw).eq_of_length hlen
    subst heq
    exact ⟨raw, hpayload, rfl, hcounted, hraw⟩

/-- So is that of a deferred block. -/
theorem Deferral.externalComp {first : PageRef} {storedLen rawLen : ℕ} (h : Storable ct v)
    (hspill : isSpillable ct = true) (hdefer : Deferral src sealer ct v (.externalComp first storedLen rawLen)) :
    ∃ payload, valuePayload ct v = .ok payload ∧ rawLen = payload.length ∧ payload.length < 2 ^ 32 ∧
      storedLen = (Lz4.compress payload).length ∧ (Lz4.compress payload).length < payload.length ∧
      src.readChain first (Lz4.compress payload).length = .ok (Lz4.compress payload) := by
  have hreturns := hdefer.returns h hspill rfl
  obtain ⟨paging, -, hres, hreads⟩ := hdefer.paging
  obtain ⟨comp, hcomp, -⟩ := bind_eq_ok.mp hres
  rw [← hreads] at hcomp
  have hform := hdefer.form
  have hshorter := hdefer.shorter _ _ _ rfl
  cases hform with
  | @externalComp payload _ hpayload hchain =>
    have hcounted := hreturns.counted hspill payload hpayload
    have hless := hshorter payload hpayload
    rw [Nat.mod_eq_of_lt (hless.trans hcounted)] at hcomp ⊢
    rw [Nat.mod_eq_of_lt hcounted]
    have hlen := ChainSource.readChain_length hcomp
    have heq := (hchain.front _ _ hcomp).eq_of_length hlen
    rw [heq] at hcomp
    exact ⟨payload, hpayload, rfl, hcounted, rfl, hless, hcomp⟩

end Deferred

/-- What a payload is of a value and of the same value with one NaN. -/
theorem valuePayload_oneNaN {ct : ColType} {v : Value} (h : Storable ct v) :
    valuePayload ct (oneNaN v) = valuePayload ct v := by
  have henc := encodeValue_oneNaN ct h
  cases ct with
  | scalar ty =>
    cases h with
    | json | jsonb => rfl
    | keyed h hvalid => cases h <;> rfl
  | composite fields =>
    cases v <;> try exact h.elim
    simp only [oneNaN] at henc ⊢
    rw [valuePayload, valuePayload, henc]
  | array elem =>
    cases v <;> try exact h.elim
    simp only [oneNaN] at henc ⊢
    rw [valuePayload, valuePayload, henc]
  | range elem =>
    cases elem <;> try exact h.elim
    cases v <;> first | exact h.elim | rfl

/-- The payload of a deferred inline body. -/
theorem planningPayload_inline {ct : ColType} {v : Value} {body : Bytes} (h : Storable ct v)
    (hspill : isSpillable ct = true) (henc : encodeValue ct v = .ok (0x00 :: body)) :
    ∃ payload, valuePayload ct v = .ok payload ∧
      body.drop (min (inlineHeaderLen ct - 1) body.length) = payload ∧
      1 + body.length - inlineHeaderLen ct = payload.length := by
  obtain ⟨payload, hknown⟩ := known_of_encoded h hspill henc
  have hheader : 1 ≤ inlineHeaderLen ct := by
    unfold inlineHeaderLen
    split
    · split <;> decide
    · decide
  have hbehind := hknown.behind
  obtain ⟨k, hk⟩ : ∃ k, inlineHeaderLen ct = k + 1 := ⟨_, (Nat.sub_add_cancel hheader).symm⟩
  rw [Behind, hk, List.length_cons] at hbehind
  refine ⟨payload, hknown.content, ?_, ?_⟩
  · rw [hk, Nat.add_sub_cancel, Nat.min_eq_left (by omega)]
    exact hbehind.2.symm
  · omega

section Cells

variable {src : ChainSource} {sealer : Sealer} {fresh : ℕ → ℕ} {blocks : ℕ → Except Failure Bytes}
  {ct : ColType} {s : Stored} {v : Value} {d : PlanDisp} {rawLen : ℕ} {w w' : Written} {bytes : Bytes}

/-- What is written for a cell only adds pages. -/
theorem encodeStored_prefix (h : encodeStored src sealer fresh ct s d rawLen w = .ok (bytes, w')) :
    w.ovf <+: w'.ovf := by
  have hpayload : ∀ {s}, (src.residentValue ct s >>= fun v => valuePayload ct v >>= fun payload =>
      writeChain sealer fresh payload w >>= fun p =>
        Except.ok (externalPointer sealer.cap p.1 payload.length, p.2)) = .ok (bytes, w') →
      w.ovf <+: w'.ovf := by
    intro s h
    obtain ⟨v, -, h⟩ := bind_eq_ok.mp h
    obtain ⟨payload, -, h⟩ := bind_eq_ok.mp h
    obtain ⟨⟨first, w1⟩, hwrite, h⟩ := bind_eq_ok.mp h
    cases h
    exact writeChain_prefix hwrite
  have hblock : ∀ {s c}, (src.compBytes c s >>= fun comp => writeChain sealer fresh comp w >>= fun p =>
      Except.ok (externalCompPointer sealer.cap p.1 comp.length rawLen, p.2)) = .ok (bytes, w') →
      w.ovf <+: w'.ovf := by
    intro s c h
    obtain ⟨comp, -, h⟩ := bind_eq_ok.mp h
    obtain ⟨⟨first, w1⟩, hwrite, h⟩ := bind_eq_ok.mp h
    cases h
    exact writeChain_prefix hwrite
  have hinline : ∀ {s}, (src.residentValue ct s >>= fun v => encodeValue ct v >>= fun bytes =>
      Except.ok (bytes, w)) = .ok (bytes, w') → w.ovf <+: w'.ovf := by
    intro s h
    obtain ⟨v, -, h⟩ := bind_eq_ok.mp h
    obtain ⟨bytes, -, h⟩ := bind_eq_ok.mp h
    cases h
    exact List.prefix_refl _
  cases d with
  | inline =>
    cases s with
    | value v => exact hinline h
    | unfetched u =>
      cases u with
      | inline body =>
        cases h
        exact List.prefix_refl _
      | external | inlineComp | externalComp => exact hinline h
  | external =>
    cases s with
    | value v => exact hpayload h
    | unfetched u =>
      cases u with
      | external first len =>
        obtain ⟨⟨kept, w1⟩, hkeep, h⟩ := bind_eq_ok.mp h
        cases h
        exact keepChain_prefix hkeep
      | inline | inlineComp | externalComp => exact hpayload h
  | inlineComp c =>
    obtain ⟨comp, -, h⟩ := bind_eq_ok.mp h
    cases h
    exact List.prefix_refl _
  | externalComp c =>
    cases s with
    | value v => exact hblock h
    | unfetched u =>
      cases u with
      | externalComp first storedLen rawLen =>
        obtain ⟨⟨kept, w1⟩, hkeep, h⟩ := bind_eq_ok.mp h
        cases h
        exact keepChain_prefix hkeep
      | inline | external | inlineComp => exact hblock h

/-- The block that a plan compresses a cell to is that of its payload. -/
theorem compBytes_of_attempt {c : CompBlock} {comp payload : Bytes} (hcell : CellOf src sealer ct s v)
    (hpayload : valuePayload ct v = .ok payload)
    (hattempt : attempt ct s = .ok (some c)) (hcomp : src.compBytes c s = .ok comp) :
    comp = Lz4.compress payload ∧ c.len = (Lz4.compress payload).length := by
  cases hcell with
  | null =>
    rw [attempt_value hpayload] at hattempt
    cases hattempt
    cases hcomp
    exact ⟨rfl, rfl⟩
  | resident h =>
    rw [attempt_value hpayload] at hattempt
    cases hattempt
    cases hcomp
    exact ⟨rfl, rfl⟩
  | @deferred v u h hspill hdefer =>
    cases u with
    | inline body =>
      have hform := hdefer.form
      cases hform with
      | inline henc =>
        obtain ⟨payload', hpayload', hdrop, -⟩ := planningPayload_inline h hspill henc
        cases hpayload.symm.trans hpayload'
        change Except.ok (some (CompBlock.owned (Lz4.compress (body.drop _)))) = _ at hattempt
        rw [hdrop] at hattempt
        cases hattempt
        cases hcomp
        exact ⟨rfl, rfl⟩
    | external first len => cases hattempt
    | inlineComp block rawLen =>
      have hform := hdefer.form
      cases hform with
      | inlineComp hpayload' =>
        cases hpayload.symm.trans hpayload'
        cases hattempt
        cases hcomp
        exact ⟨rfl, rfl⟩
    | externalComp first storedLen rawLen =>
      obtain ⟨payload', hpayload', -, -, hstored, -, hread⟩ := hdefer.externalComp h hspill
      cases hpayload.symm.trans hpayload'
      cases hattempt
      rw [hstored] at hcomp ⊢
      cases hread.symm.trans hcomp
      exact ⟨rfl, rfl⟩

/-- The payload length that a plan records of a cell is that of its value. -/
theorem payloadLen_of_facts {f : ℕ × ℕ} {payload : Bytes} (hcell : CellOf src sealer ct s v)
    (hnull : s.isNull = false) (hspill : isSpillable ct = true) (hpayload : valuePayload ct v = .ok payload)
    (hfacts : valueFacts ct s = .ok f) :
    f = (payload.length + inlineHeaderLen ct, payload.length) := by
  cases hcell with
  | null => cases hnull
  | resident h =>
    rw [← columnFacts_spillable hspill] at hfacts
    obtain ⟨inline, payload', hknown, hf⟩ := known_of_facts h hspill hfacts
    cases hpayload.symm.trans hknown.content
    exact hf
  | @deferred v u h hspill hdefer =>
    cases hfacts
    have hlen : u.payloadLen ct = payload.length := by
      cases hlarge : u.isLarge with
      | true =>
        obtain ⟨payload', raw, hpayload', hlen, -⟩ := hdefer.form.resolves hlarge hdefer.back
        cases hpayload.symm.trans hpayload'
        rw [hlen, Nat.mod_eq_of_lt ((hdefer.returns h hspill hlarge).counted hspill _ hpayload)]
      | false =>
        have hform := hdefer.form
        cases hform with
        | inline henc =>
          obtain ⟨payload', hpayload', -, hlen⟩ := planningPayload_inline h hspill henc
          cases hpayload.symm.trans hpayload'
          exact hlen
        | external | inlineComp | externalComp => cases hlarge
    rw [hlen]

/-- A value as its record holds it is that value, or the one with one NaN. -/
theorem residentValue_of {v' : Value} (hcell : CellOf src sealer ct s v)
    (h : src.residentValue ct s = .ok v') : v' = v ∨ v' = oneNaN v := by
  cases hcell with
  | null =>
    cases h
    exact .inl rfl
  | resident =>
    cases h
    exact .inl rfl
  | deferred hst hspill hdefer =>
    cases hdefer.back.symm.trans h
    exact .inr rfl

/-- A cell is written as its value, in the form of its plan. -/
theorem laidAs_of_encoded (hkept : src.StandsIn sealer blocks) (hcell : CellOf src sealer ct s v)
    (hst : Storable ct v) (hspill : isSpillable ct = true) {payload : Bytes}
    (hpayload : valuePayload ct v = .ok payload) (hraw : rawLen = payload.length)
    (htells : ∀ c, d = .inlineComp c ∨ d = .externalComp c → attempt ct s = .ok (some c) ∧
      INLINE_COMP_OVERHEAD + c.len < payload.length + inlineHeaderLen ct)
    (h : encodeStored src sealer fresh ct s d rawLen w = .ok (bytes, w')) (hstood : Stood blocks w') :
    LaidAs sealer blocks ct v bytes := by
  have hinline : (src.residentValue ct s >>= fun v => encodeValue ct v >>= fun bytes =>
      Except.ok (bytes, w)) = .ok (bytes, w') → LaidAs sealer blocks ct v bytes := by
    intro h
    obtain ⟨v', hv', h⟩ := bind_eq_ok.mp h
    obtain ⟨bytes', henc, h⟩ := bind_eq_ok.mp h
    cases h
    rcases residentValue_of hcell hv' with rfl | rfl
    · exact .inline henc
    · exact .inline ((encodeValue_oneNaN ct hst).symm.trans henc)
  have hmoved : (src.residentValue ct s >>= fun v => valuePayload ct v >>= fun payload =>
      writeChain sealer fresh payload w >>= fun p =>
        Except.ok (externalPointer sealer.cap p.1 payload.length, p.2)) = .ok (bytes, w') →
      LaidAs sealer blocks ct v bytes := by
    intro h
    obtain ⟨v', hv', h⟩ := bind_eq_ok.mp h
    obtain ⟨payload', hp, h⟩ := bind_eq_ok.mp h
    obtain ⟨⟨first, w1⟩, hwrite, h⟩ := bind_eq_ok.mp h
    cases h
    have hp' : valuePayload ct v = .ok payload' := by
      rcases residentValue_of hcell hv' with rfl | rfl
      · exact hp
      · exact (valuePayload_oneNaN hst).symm.trans hp
    exact .external hp' (chained_of_written hwrite hstood)
  have hshorter : ∀ c, d = .inlineComp c ∨ d = .externalComp c →
      c.len = (Lz4.compress payload).length → (Lz4.compress payload).length < payload.length := by
    intro c hd hc
    have hless := (htells c hd).2
    have hheader : inlineHeaderLen ct ≤ 3 := by
      unfold inlineHeaderLen
      split
      · split <;> decide
      · decide
    unfold INLINE_COMP_OVERHEAD at hless
    omega
  have hblock : ∀ {c}, d = .externalComp c → (src.compBytes c s >>= fun comp =>
      writeChain sealer fresh comp w >>= fun p =>
        Except.ok (externalCompPointer sealer.cap p.1 comp.length rawLen, p.2)) = .ok (bytes, w') →
      LaidAs sealer blocks ct v bytes := by
    intro c hd h
    obtain ⟨comp, hcomp, h⟩ := bind_eq_ok.mp h
    obtain ⟨⟨first, w1⟩, hwrite, h⟩ := bind_eq_ok.mp h
    cases h
    obtain ⟨rfl, hlen⟩ := compBytes_of_attempt hcell hpayload (htells c (.inr hd)).1 hcomp
    rw [hraw]
    exact .externalComp hpayload (hshorter c (.inr hd) hlen) (chained_of_written hwrite hstood)
  cases d with
  | inline =>
    cases hcell with
    | null | resident => exact hinline h
    | @deferred v u _ _ hdefer =>
      cases u with
      | inline body =>
        have hform := hdefer.form
        cases h
        cases hform with
        | inline henc => exact .inline henc
      | external | inlineComp | externalComp => exact hinline h
  | external =>
    cases hcell with
    | null | resident => exact hmoved h
    | @deferred v u _ _ hdefer =>
      cases u with
      | external first len =>
        obtain ⟨payload', hp, rfl, hcounted, hread⟩ := hdefer.external hst hspill
        obtain ⟨⟨kept, w1⟩, hkeep, h⟩ := bind_eq_ok.mp h
        cases h
        exact .external hp (chained_of_kept hkept hread hcounted
          (fun hshare => hdefer.points hshare first rfl) hkeep hstood)
      | inline | inlineComp | externalComp => exact hmoved h
  | inlineComp c =>
    obtain ⟨comp, hcomp, h⟩ := bind_eq_ok.mp h
    cases h
    obtain ⟨rfl, -⟩ := compBytes_of_attempt hcell hpayload (htells c (.inl rfl)).1 hcomp
    rw [hraw]
    exact .inlineComp hpayload
  | externalComp c =>
    cases hcell with
    | null | resident => exact hblock rfl h
    | @deferred v u _ _ hdefer =>
      cases u with
      | externalComp first storedLen rawLen' =>
        obtain ⟨payload', hp, rfl, hcounted, rfl, hless, hread⟩ := hdefer.externalComp hst hspill
        obtain ⟨⟨kept, w1⟩, hkeep, h⟩ := bind_eq_ok.mp h
        cases h
        exact .externalComp hp hless (chained_of_kept hkept hread (hless.trans hcounted)
          (fun hshare => hdefer.points hshare first rfl) hkeep hstood)
      | inline | external | inlineComp => exact hblock rfl h

end Cells

end Jed.Codec
