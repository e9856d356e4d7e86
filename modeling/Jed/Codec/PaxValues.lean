import Jed.Codec.PaxLayout

/-!
# The values of a leaf

What a cell of a leaf was written as, whichever form its plan gave it and whether the value was resident
or deferred, and on which condition the value that is read of it is the one that was written.
-/

namespace Jed.Codec

open Readers Key PMap Results

/-- The strings inside a value are counted in 16 bits; a string of its own may leave its record. -/
def NestedFits : Value → Prop
  | .text _ | .bytea _ | .json _ => True
  | v => InlineFits v

/-- The lengths that are stored of a value are its own. -/
structure Returns (ct : ColType) (v : Value) : Prop where
  nested : NestedFits v
  counted : isSpillable ct = true → ∀ payload, valuePayload ct v = .ok payload → payload.length < 2 ^ 32

variable {v : Value}

theorem nestedFits_of_inlineFits (h : InlineFits v) : NestedFits v := by
  cases v <;> first | exact h | trivial

variable {ct : ColType} {payload : Bytes}

/-- A value is the string that its payload is, or its strings are counted. -/
theorem inlineFits_or_string (h : Storable ct v)
    (hn : NestedFits v) (hpayload : valuePayload ct v = .ok payload) :
    InlineFits v ∨ oneNaN v = v ∧ (valueFromPayload ct payload = .ok v) ∧
      ∀ raw, valueFromPayload ct raw = .ok v → raw = payload := by
  have hutf8 : ∀ {s raw : Bytes} {f : Bytes → Value} {message : String}, Function.Injective f →
      ((do let s ← fromUtf8 raw message; pure (f s) : Cursor Value) []).map (·.1) = .ok (f s) →
      raw = s := by
    intro s raw f message hf hread
    unfold fromUtf8 at hread
    split at hread
    · exact hf (Except.ok.inj hread)
    · cases hread
  cases ct with
  | scalar ty =>
    cases h with
    | json h =>
      cases hpayload
      refine .inr ⟨rfl, ?_, fun raw hraw => hutf8 (fun _ _ h => Value.json.inj h) hraw⟩
      simp only [valueFromPayload, fromUtf8, if_pos h]
      rfl
    | jsonb h => exact .inl hn
    | keyed h hvalid =>
      cases h <;> try exact .inl hn
      · cases hpayload
        refine .inr ⟨rfl, ?_, fun raw hraw => hutf8 (fun _ _ h => Value.text.inj h) hraw⟩
        simp only [valueFromPayload, fromUtf8, if_pos (hvalid _ rfl)]
        rfl
      · cases hpayload
        refine .inr ⟨rfl, rfl, fun raw hraw => ?_⟩
        cases hraw
        rfl
  | composite fields =>
    cases v <;> first | exact h.elim | exact .inl hn
  | array elem =>
    cases v <;> first | exact h.elim | exact .inl hn
  | range elem =>
    cases elem <;> try exact h.elim
    cases v <;> first | exact h.elim | exact .inl hn

/-- A payload reads back to a value whose inner strings are counted. -/
theorem valueFromPayload_nested (h : Storable ct v)
    (hspill : isSpillable ct = true) (hn : NestedFits v) (hpayload : valuePayload ct v = .ok payload) :
    valueFromPayload ct payload = .ok (oneNaN v) := by
  rcases inlineFits_or_string h hn hpayload with hfits | ⟨hone, hback, -⟩
  · obtain ⟨payload', hpayload', hback⟩ := valueFromPayload_valuePayload h hspill hfits
    cases hpayload.symm.trans hpayload'
    exact hback
  · rw [hone]
    exact hback

variable {raw : Bytes}

/-- What is read of any bytes has its inner strings counted. -/
theorem nestedFits_of_read (h : Storable ct v)
    (hspill : isSpillable ct = true) (hread : valueFromPayload ct raw = .ok (oneNaN v)) :
    NestedFits v := by
  have hinline : (readInlineBody .construct ct raw).map (·.1) = .ok (oneNaN v) → NestedFits v := by
    intro hbody
    obtain ⟨⟨w, rest⟩, hbody, hw⟩ := map_eq_ok.mp hbody
    have hfits := ((sound_readInlineBody .construct ct).ok hbody).2.1
    change w = oneNaN v at hw
    rw [hw] at hfits
    exact nestedFits_of_inlineFits (inlineFits_of_oneNaN v hfits)
  cases ct with
  | scalar ty =>
    cases h with
    | json | jsonb => trivial
    | keyed h hvalid => cases h <;> trivial
  | composite | array | range => exact hinline hread

/-- A value that is read off a front of its payload of the length that is stored is one that comes back. -/
theorem returns_of_front (h : Storable ct v)
    (hspill : isSpillable ct = true) (hpayload : valuePayload ct v = .ok payload)
    (hfront : raw <+: payload) (hlen : raw.length = payload.length % 2 ^ 32)
    (hread : valueFromPayload ct raw = .ok (oneNaN v)) : Returns ct v := by
  have hnested := nestedFits_of_read h hspill hread
  refine ⟨hnested, fun _ payload' hpayload' => ?_⟩
  cases hpayload.symm.trans hpayload'
  by_contra hlong
  rw [not_lt] at hlong
  rcases inlineFits_or_string h hnested hpayload with hfits | ⟨hone, -, hunique⟩
  · exact not_valueFromPayload_cut h hfits hspill hpayload hlong hfront hlen _ hread
  · rw [hone] at hread
    rw [hunique raw hread] at hlen
    omega

/-- A chain on the pages of a store: a front of its bytes is read of it, and all of them at their length. -/
structure Chained (sealer : Sealer) (blocks : ℕ → Except Failure Bytes) (first : PageRef) (bytes : Bytes) :
    Prop where
  points : sealer.Points first
  whole : readOverflowChain (sealer.readBody blocks) sealer.cap bytes.length first = .ok bytes
  front : bytes.length < 2 ^ 32 ∨ ∀ len raw,
    readOverflowChain (sealer.readBody blocks) sealer.cap len first = .ok raw → raw <+: bytes

/-- What is read at the length that is stored. -/
theorem Chained.read {sealer : Sealer} {blocks : ℕ → Except Failure Bytes} {first : PageRef}
    {bytes : Bytes} (h : Chained sealer blocks first bytes)
    (hraw : readOverflowChain (sealer.readBody blocks) sealer.cap (bytes.length % 2 ^ 32) first = .ok raw) :
    raw <+: bytes ∧ raw.length = bytes.length % 2 ^ 32 := by
  have hlen := readOverflowFrom_length _ le_rfl (Nat.zero_le _) hraw
  cases h.front with
  | inl hshort =>
    rw [Nat.mod_eq_of_lt hshort, h.whole] at hraw
    cases hraw
    exact ⟨List.prefix_refl _, (Nat.mod_eq_of_lt hshort).symm⟩
  | inr hfront => exact ⟨hfront _ _ hraw, hlen⟩

/-- The bytes of a value in any of the forms of a plan. -/
inductive LaidAs (sealer : Sealer) (blocks : ℕ → Except Failure Bytes) (ct : ColType) (v : Value) :
    Bytes → Prop where
  | inline {bytes : Bytes} (h : encodeValue ct v = .ok bytes) : LaidAs sealer blocks ct v bytes
  | external {payload : Bytes} {first : PageRef} (h : valuePayload ct v = .ok payload)
      (hchain : Chained sealer blocks first payload) :
      LaidAs sealer blocks ct v (externalPointer sealer.cap first payload.length)
  | inlineComp {payload : Bytes} (h : valuePayload ct v = .ok payload) :
      LaidAs sealer blocks ct v (TAG_INLINE_COMP :: (beBytes 4 payload.length ++
        (beBytes 2 (Lz4.compress payload).length ++ Lz4.compress payload)))
  | externalComp {payload : Bytes} {first : PageRef} (h : valuePayload ct v = .ok payload)
      (hshorter : (Lz4.compress payload).length < payload.length)
      (hchain : Chained sealer blocks first (Lz4.compress payload)) :
      LaidAs sealer blocks ct v
        (externalCompPointer sealer.cap first (Lz4.compress payload).length payload.length)

/-- Written on a page, a value is read to a form that resolves to it on exactly the condition that its
    lengths are stored. -/
theorem LaidAs.reads {sealer : Sealer} {blocks : ℕ → Except Failure Bytes}
    {bytes : Bytes} (h : Storable ct v) (hspill : isSpillable ct = true)
    (hlaid : LaidAs sealer blocks ct v bytes) (hshort : bytes.length < 2 ^ 16) :
    ∃ u, Reads (readValueLazy ct sealer.cap) bytes (.unfetched u) ∧
      (resolveUnfetched ct u (sealer.readBody blocks) sealer.cap = .ok (oneNaN v) ↔ Returns ct v) := by
  cases hlaid with
  | inline henc =>
    have hfits := inlineFits_of_short ct h henc hshort
    obtain ⟨body, hbody, hread⟩ := readsBack_value ct h hfits
    cases henc.symm.trans hbody
    refine ⟨.inline body, ?_, ?_⟩
    · unfold readValueLazy
      refine (reads_readU8 0x00).bind ?_
      rw [if_pos rfl, if_pos hspill]
      exact (reads_inlineBodySpan hread).map
    · refine ⟨fun _ => ⟨nestedFits_of_inlineFits hfits, fun _ payload hpayload => ?_⟩, fun _ => ?_⟩
      · have hbehind := (encodeValue_behind h hspill henc hpayload).1
        omega
      · show (readInlineBody .construct ct body).map (·.1) = _
        rw [hread.run]
        rfl
  | @external payload first hpayload hchain =>
    refine ⟨.external first (payload.length % 2 ^ 32), ?_, ?_⟩
    · unfold readValueLazy
      refine (reads_readU8 TAG_EXTERNAL).bind ?_
      rw [if_neg (by decide), if_neg (by decide), if_pos rfl]
      refine (reads_readBe (w := 4) hchain.points.page).bind ((reads_readBe_mod 4 _).bind ?_)
      exact (reads_readPointerTag hchain.points).map
    · constructor
      · intro hres
        obtain ⟨raw, hraw, hback⟩ := bind_eq_ok.mp hres
        obtain ⟨hfront, hlen⟩ := hchain.read hraw
        exact returns_of_front h hspill hpayload hfront hlen hback
      · intro hreturns
        refine bind_eq_ok.mpr ⟨payload, ?_, valueFromPayload_nested h hspill hreturns.nested hpayload⟩
        rw [Nat.mod_eq_of_lt (hreturns.counted hspill payload hpayload)]
        exact hchain.whole
  | @inlineComp payload hpayload =>
    have hroom : (Lz4.compress payload).length < 2 ^ 16 := by
      simp only [List.length_cons, List.length_append, beBytes_length] at hshort
      omega
    refine ⟨.inlineComp (Lz4.compress payload) (payload.length % 2 ^ 32), ?_, ?_⟩
    · unfold readValueLazy
      refine (reads_readU8 TAG_INLINE_COMP).bind ?_
      rw [if_neg (by decide), if_neg (by decide), if_neg (by decide), if_pos rfl]
      refine (reads_readBe_mod 4 _).bind ((reads_readBe (w := 2) hroom).bind ?_)
      exact (reads_take _).map
    · constructor
      · intro hres
        obtain ⟨raw, hraw, hback⟩ := bind_eq_ok.mp hres
        obtain ⟨hfront, hlen⟩ := Lz4.decompress_front (List.prefix_refl _) hraw
        exact returns_of_front h hspill hpayload hfront hlen hback
      · intro hreturns
        refine bind_eq_ok.mpr ⟨payload, ?_, valueFromPayload_nested h hspill hreturns.nested hpayload⟩
        rw [Nat.mod_eq_of_lt (hreturns.counted hspill payload hpayload)]
        exact Lz4.decompress_compress payload
  | @externalComp payload first hpayload hshorter hchain =>
    refine ⟨.externalComp first ((Lz4.compress payload).length % 2 ^ 32) (payload.length % 2 ^ 32), ?_, ?_⟩
    · unfold readValueLazy
      refine (reads_readU8 TAG_EXTERNAL_COMP).bind ?_
      rw [if_neg (by decide), if_neg (by decide), if_neg (by decide), if_neg (by decide), if_pos rfl]
      refine (reads_readBe (w := 4) hchain.points.page).bind ?_
      refine (reads_readBe_mod 4 _).bind ((reads_readBe_mod 4 _).bind ?_)
      exact (reads_readPointerTag hchain.points).map
    · constructor
      · intro hres
        obtain ⟨comp, hcomp, hres⟩ := bind_eq_ok.mp hres
        obtain ⟨raw, hraw, hback⟩ := bind_eq_ok.mp hres
        obtain ⟨hfront, hlen⟩ := Lz4.decompress_front (hchain.read hcomp).1 hraw
        exact returns_of_front h hspill hpayload hfront hlen hback
      · intro hreturns
        have hcounted := hreturns.counted hspill payload hpayload
        refine bind_eq_ok.mpr ⟨Lz4.compress payload, ?_, bind_eq_ok.mpr ⟨payload, ?_,
          valueFromPayload_nested h hspill hreturns.nested hpayload⟩⟩
        · rw [Nat.mod_eq_of_lt (hshorter.trans hcounted)]
          exact hchain.whole
        · rw [Nat.mod_eq_of_lt hcounted]
          exact Lz4.decompress_compress payload

end Jed.Codec
