import Jed.Wire.Frame

/-!
# Parts of frames

The writer and the reader of a part of a frame: what one writes the other reads, what it reads is
what would be written, and where it may reserve what it counts it never panics.
-/

namespace Jed.Wire

open Readers Key Codec

variable {s : Bytes}

theorem beNat_inj {t : Bytes} (hlen : s.length = t.length) (h : beNat s = beNat t) : s = t := by
  induction s using List.reverseRecOn generalizing t with
  | nil => exact (List.eq_nil_of_length_eq_zero hlen.symm).symm
  | append_singleton s a ih =>
    cases t using List.reverseRecOn with
    | nil => simp at hlen
    | append_singleton t b =>
      rw [beNat_append, beNat_append] at h
      have ha := a.toNat_lt
      have hb := b.toNat_lt
      rw [List.length_append, List.length_append, List.length_singleton, List.length_singleton]
        at hlen
      have hab : a = b := UInt8.toNat_inj.mp (by omega)
      have hst : s = t := ih (by omega) (by omega)
      rw [hst, hab]

theorem beBytes_beNat (s : Bytes) : beBytes s.length (beNat s) = s := by
  apply beNat_inj (beBytes_length _ _)
  rw [beNat_beBytes, Nat.mod_eq_of_lt (beNat_lt s)]

theorem beBytes_one (b : UInt8) : beBytes 1 b.toNat = [b] := by
  have := beBytes_beNat [b]
  rwa [show beNat [b] = b.toNat by simp [beNat]] at this

/-- A decode fault, `08P01`; a panic is none. -/
def IsViolation (e : Failure) : Prop := ∃ message, e = violation message

theorem isViolation (message : String) : IsViolation (violation message) := ⟨message, rfl⟩

/-- The length of a message's pages as its writer keeps it. -/
def PageLen (ps : ℕ) (p : Option ℕ) : Prop := p = none ∨ p = some ps

/-- What the writer and the reader of a part have to do with each other, on values of `P`; `Q` is
    what the reader asks for not to panic. -/
structure Part {α : Type} (d : Decoder) (Q : Prop) (P : α → Prop) (write : α → Writer)
    (read : Field α) : Prop where
  reads : ∀ {a b p p'}, P a → PageLen d.pageSize p → write a p = .ok (b, p') →
    PageLen d.pageSize p' ∧ Reads read b a
  takes : Takes read fun b a => P a ∧ ∀ p, PageLen d.pageSize p →
    ∃ p', PageLen d.pageSize p' ∧ write a p = .ok (b, p')
  sound : Q → Sound IsViolation read fun _ => True

/-- An allocator that serves every reservation of at most as many items as there are bytes left. -/
def Serves (serves : ℕ → ℕ → Bool) : Prop :=
  ∀ items remaining, items ≤ remaining → serves items remaining = true

def Decoder.Serving (d : Decoder) : Prop := Serves d.serves

variable {d : Decoder} {Q : Prop} {α β γ : Type}

variable {P : α → Prop} {write : α → Writer} {read : Field α}

/-- A part that is the same values in another type. -/
theorem Part.iso {R : β → Prop}
    (h : Part d Q P write read) {f : α → β} {g : β → α} (hfg : ∀ b, R b → f (g b) = b ∧ P (g b))
    (hgf : ∀ a, P a → g (f a) = a ∧ R (f a)) :
    Part d Q R (fun b => write (g b)) (read >>= fun a => pure (f a)) where
  reads := by
    intro b s p p' hb hp hw
    obtain ⟨hp', hread⟩ := h.reads (hfg b hb).2 hp hw
    have := hread.map (f := f)
    rw [(hfg b hb).1] at this
    exact ⟨hp', this⟩
  takes := by
    refine h.takes.bind fun a s hs => Takes.pure ?_
    rw [List.append_nil, (hgf a hs.1).1]
    exact ⟨(hgf a hs.1).2, hs.2⟩
  sound hQ := (h.sound hQ).bind fun _ _ => Sound.pure trivial

/-- What a list of writers writes: the first one's bytes, then the others'. -/
theorem writeAll_cons_ok {w : Writer} {ws : List Writer} {p p' : Option ℕ}
    (h : writeAll (w :: ws) p = .ok (s, p')) :
    ∃ b c q, w p = .ok (b, q) ∧ writeAll ws q = .ok (c, p') ∧ s = b ++ c := by
  rw [writeAll] at h
  change (w p >>= fun x => writeAll ws x.2 >>= fun y => Except.ok (x.1 ++ y.1, y.2)) = _ at h
  cases hw : w p with
  | error e =>
    rw [hw] at h
    cases h
  | ok x =>
    obtain ⟨b, q⟩ := x
    rw [hw] at h
    change (writeAll ws q >>= fun y => Except.ok (b ++ y.1, y.2)) = _ at h
    cases hws : writeAll ws q with
    | error e =>
      rw [hws] at h
      cases h
    | ok y =>
      rw [hws] at h
      cases h
      exact ⟨b, y.1, q, rfl, hws, rfl⟩

theorem writeAll_cons {w : Writer} {ws : List Writer} {p q p' : Option ℕ} {b c : Bytes}
    (h : w p = .ok (b, q)) (h' : writeAll ws q = .ok (c, p')) :
    writeAll (w :: ws) p = .ok (b ++ c, p') := by
  rw [writeAll]
  show (w p >>= fun x => writeAll ws x.2 >>= fun y => Except.ok (x.1 ++ y.1, y.2)) = _
  rw [h]
  show (writeAll ws q >>= fun y => Except.ok (b ++ y.1, y.2)) = _
  rw [h']
  rfl

/-- A field, and the fields after it. -/
theorem Part.field {PA : β → Prop} (write : β → Writer) (read : Field β)
    (h : Part d Q PA write read) (f : α → β) (hPA : ∀ a, P a → PA (f a)) {ws : α → List Writer}
    {rest : β → Field α}
    (h' : ∀ b, PA b → Part d Q (fun a => P a ∧ f a = b) (fun a => writeAll (ws a)) (rest b)) :
    Part d Q P (fun a => writeAll (write (f a) :: ws a)) (read >>= rest) where
  reads := by
    intro a s p p' ha hp hw
    obtain ⟨b, c, q, hb, hc, rfl⟩ := writeAll_cons_ok hw
    obtain ⟨hq, hread⟩ := h.reads (hPA a ha) hp hb
    obtain ⟨hp', hread'⟩ := (h' (f a) (hPA a ha)).reads ⟨ha, rfl⟩ hq hc
    exact ⟨hp', hread.bind hread'⟩
  takes := by
    refine h.takes.bind fun b s hs => (h' b hs.1).takes.mono fun t a ha => ?_
    obtain ⟨⟨ha, rfl⟩, hwrite⟩ := ha
    refine ⟨ha, fun p hp => ?_⟩
    obtain ⟨q, hq, hb⟩ := hs.2 p hp
    obtain ⟨p', hp', hc⟩ := hwrite q hq
    exact ⟨p', hp', writeAll_cons hb hc⟩
  sound hQ := by
    have hpart : Sound IsViolation read PA := by
      apply Sound.of
      · intro buf v rest hv
        obtain ⟨hsuffix, -, hmore⟩ := (h.sound hQ).ok hv
        obtain ⟨_, _, hPA, _⟩ := h.takes buf v rest hv
        exact ⟨hsuffix, hPA, hmore⟩
      · intro buf e he
        exact (h.sound hQ).error he
    exact hpart.bind fun b hb => (h' b hb).sound hQ

theorem Part.done {P : α → Prop} {a : α} (h : ∀ x, P x ↔ x = a) :
    Part d Q P (fun _ => writeAll []) (pure a) where
  reads := by
    intro x b p p' hx hp hw
    obtain rfl := (h x).mp hx
    cases hw
    exact ⟨hp, Reads.pure _⟩
  takes := Takes.pure ⟨(h a).mpr rfl, fun p hp => ⟨p, hp, rfl⟩⟩
  sound _ := Sound.pure trivial

variable {n : ℕ}

theorem reads_take (h : s.length = n) : Reads (d.take n) s s := by
  subst h
  intro rest
  simp [Decoder.take]

theorem takes_take (n : ℕ) : Takes (d.take n) fun b v => b = v ∧ v.length = n := by
  intro buf v rest h
  unfold Decoder.take at h
  split at h
  · cases h
  · rename_i hlen
    cases h
    exact ⟨buf.take n, (List.take_append_drop n buf).symm, rfl,
      List.length_take_of_le (not_lt.mp hlen)⟩

theorem sound_take (n : ℕ) : Sound IsViolation (d.take n) fun s => s.length = n := by
  intro buf
  unfold Decoder.take
  by_cases h : buf.length < n
  · rw [if_pos h]
    exact isViolation _
  · rw [if_neg h]
    have hn : n ≤ buf.length := not_lt.mp h
    refine ⟨List.drop_suffix n buf, List.length_take_of_le hn, fun more => ?_⟩
    have hlonger : ¬(buf ++ more).length < n := by
      rw [List.length_append]
      omega
    rw [if_neg hlonger, List.take_append_of_le_length hn, List.drop_append_of_le_length hn]

theorem part_be (w : ℕ) : Part d Q (· < 256 ^ w) (Writer.be w) (d.be w) where
  reads := by
    intro n b p p' hn hp hw
    cases hw
    have := (reads_take (d := d) (beBytes_length w n)).map (f := beNat)
    rw [beNat_beBytes, Nat.mod_eq_of_lt hn] at this
    exact ⟨hp, this⟩
  takes := by
    refine (takes_take w).bind fun s b hs => Takes.pure ?_
    obtain ⟨rfl, rfl⟩ := hs
    refine ⟨beNat_lt b, fun p hp => ⟨p, hp, ?_⟩⟩
    rw [List.append_nil, Writer.be, beBytes_beNat]
    rfl
  sound _ := (sound_take w).bind fun _ _ => Sound.pure trivial

theorem part_u8 : Part d Q (fun _ => True) Writer.u8 d.u8 :=
  (part_be 1).iso (fun b _ => ⟨UInt8.ofNat_toNat, b.toNat_lt⟩) fun _ hn =>
    ⟨(UInt8.toNat_ofNat').trans (Nat.mod_eq_of_lt hn), trivial⟩

theorem part_u16 : Part d Q (fun _ => True) Writer.u16 d.u16 :=
  (part_be 2).iso (fun b _ => ⟨UInt16.ofNat_toNat, b.toNat_lt⟩) fun _ hn =>
    ⟨(UInt16.toNat_ofNat').trans (Nat.mod_eq_of_lt hn), trivial⟩

theorem part_u32 : Part d Q (fun _ => True) Writer.u32 d.u32 :=
  (part_be 4).iso (fun b _ => ⟨UInt32.ofNat_toNat, b.toNat_lt⟩) fun _ hn =>
    ⟨(UInt32.toNat_ofNat').trans (Nat.mod_eq_of_lt hn), trivial⟩

theorem part_u64 : Part d Q (fun _ => True) Writer.u64 d.u64 :=
  (part_be 8).iso (fun b _ => ⟨UInt64.ofNat_toNat, b.toNat_lt⟩) fun _ hn =>
    ⟨(UInt64.toNat_ofNat').trans (Nat.mod_eq_of_lt hn), trivial⟩

theorem part_bool : Part d Q (fun _ => True) Writer.bool d.bool where
  reads := by
    intro v b p p' _ hp hw
    obtain ⟨hp', hread⟩ := part_u8 (d := d) (Q := Q) |>.reads trivial hp hw
    refine ⟨hp', hread.check ?_⟩
    cases v
    · exact Reads.pure false
    · exact Reads.pure true
  takes := by
    refine (part_u8 (Q := Q)).takes.bind fun n b hb => ?_
    split
    · rename_i hn
      subst hn
      refine Takes.pure ⟨trivial, ?_⟩
      rw [List.append_nil]
      exact hb.2
    split
    · rename_i hn
      subst hn
      refine Takes.pure ⟨trivial, ?_⟩
      rw [List.append_nil]
      exact hb.2
    · exact Takes.throw
  sound hQ := by
    refine (part_u8.sound hQ).bind fun n _ => ?_
    split
    · exact Sound.pure trivial
    split
    · exact Sound.pure trivial
    · exact Sound.throw (isViolation _)

theorem part_sized (n : ℕ) : Part d Q (fun _ => True) (Writer.sized (n := n)) (d.sized n) where
  reads := by
    intro v b p p' _ hp hw
    cases hw
    refine ⟨hp, (reads_take v.2).check ?_⟩
    rw [dif_pos v.2]
    exact Reads.pure v
  takes := by
    refine (takes_take n).bind fun s b hs => ?_
    obtain ⟨rfl, hlen⟩ := hs
    rw [dif_pos hlen]
    refine Takes.pure ⟨trivial, fun p hp => ⟨p, hp, ?_⟩⟩
    rw [List.append_nil]
    rfl
  sound _ := by
    refine (sound_take n).bind fun s hs => ?_
    rw [dif_pos hs]
    exact Sound.pure trivial

theorem reads_utf8 (v : Utf8) : Reads (Decoder.utf8 v.1) [] v := by
  rw [Decoder.utf8, dif_pos v.2]
  exact Reads.pure v

theorem takes_utf8 (s : Bytes) : Takes (Decoder.utf8 s) fun b v => b = [] ∧ v.1 = s := by
  unfold Decoder.utf8
  split
  · exact Takes.pure ⟨rfl, rfl⟩
  · exact Takes.throw

theorem sound_utf8 (s : Bytes) : Sound IsViolation (Decoder.utf8 s) fun _ => True := by
  unfold Decoder.utf8
  split
  · exact Sound.pure trivial
  · exact Sound.throw (isViolation _)

theorem part_sqlstate : Part d Q (fun _ => True) Writer.sqlstate d.sqlstate where
  reads := by
    intro v b p p' _ hp hw
    unfold Writer.sqlstate at hw
    split at hw
    · rename_i hstate
      cases hw
      have hlen : v.1.length = 5 := by
        unfold isSqlstate at hstate
        rw [Bool.and_eq_true, beq_iff_eq] at hstate
        exact hstate.1
      refine ⟨hp, (reads_take hlen).check ?_⟩
      rw [if_pos hstate]
      exact reads_utf8 v
    · cases hw
  takes := by
    refine (takes_take 5).bind fun s b hs => ?_
    obtain ⟨rfl, -⟩ := hs
    split
    · rename_i hstate
      refine (takes_utf8 b).mono fun c v hv => ?_
      obtain ⟨rfl, rfl⟩ := hv
      refine ⟨trivial, fun p hp => ⟨p, hp, ?_⟩⟩
      rw [List.append_nil, Writer.sqlstate, if_pos hstate]
      rfl
    · exact Takes.throw
  sound _ := by
    refine (sound_take 5).bind fun s _ => ?_
    split
    · exact sound_utf8 s
    · exact Sound.throw (isViolation _)

theorem part_page : Part d Q (fun b => b.length = d.pageSize) Writer.page d.page where
  reads := by
    intro v b p p' hv hp hw
    unfold Writer.page at hw
    split at hw
    · cases hw
    · rename_i hne
      have hps : d.pageSize ≠ 0 := by
        rintro hzero
        rw [hzero] at hv
        exact hne (by rw [List.eq_nil_of_length_eq_zero hv]; rfl)
      obtain ⟨hp', rfl⟩ : PageLen d.pageSize p' ∧ v = b := by
        obtain rfl | rfl := hp
        · cases hw
          exact ⟨.inr (by rw [hv]), rfl⟩
        · change (if d.pageSize ≠ v.length then _ else _ : Writer) _ = _ at hw
          rw [if_neg (fun hne => hne hv.symm)] at hw
          cases hw
          exact ⟨.inr rfl, rfl⟩
      refine ⟨hp', ?_⟩
      rw [Decoder.page, if_neg hps]
      exact reads_take hv
  takes := by
    unfold Decoder.page
    split
    · exact Takes.throw
    · rename_i hps
      refine (takes_take d.pageSize).mono fun b v hv => ?_
      obtain ⟨rfl, hlen⟩ := hv
      have hne : ¬b.isEmpty := by
        intro hempty
        rw [List.isEmpty_iff.mp hempty] at hlen
        exact hps hlen.symm
      refine ⟨hlen, fun p hp => ⟨some d.pageSize, .inr rfl, ?_⟩⟩
      rw [Writer.page, if_neg hne]
      obtain rfl | rfl := hp
      · rw [← hlen]
        rfl
      · change (if d.pageSize ≠ b.length then _ else _ : Writer) _ = _
        rw [if_neg (fun hne => hne hlen.symm)]
        rfl
  sound _ := by
    unfold Decoder.page
    split
    · exact Sound.throw (isViolation _)
    · exact (sound_take _).mono fun _ _ => trivial

/-- What is counted, and what is asked of the bytes that are left. -/
theorem count_ok {itemLen n : ℕ} {what : String} (hn : n < 2 ^ 32) (buf : Bytes) :
    d.count itemLen what (beBytes 4 n ++ buf) =
      if buf.length < n * itemLen then
        .error (violation (s!"page-service {what} count {n} of {itemLen}-byte items exceeds the " ++
          s!"{buf.length} remaining bytes"))
      else .ok (n, buf) := by
  have hread := ((part_be (Q := True) 4).reads (p := none) (d := d) hn (.inl rfl) rfl).2 buf
  unfold Decoder.count
  rw [bind_ok hread]
  change (if buf.length < n * itemLen then _ else _ : Field ℕ) buf = _
  split <;> rfl

theorem takes_count (itemLen : ℕ) (what : String) :
    Takes (d.count itemLen what) fun b n => n < 2 ^ 32 ∧ b = beBytes 4 n := by
  refine (part_be (Q := True) 4).takes.bind fun n b hb => ?_
  intro buf v rest h
  change (if buf.length < n * itemLen then _ else _ : Field ℕ) buf = _ at h
  split at h
  · cases h
  · cases h
    refine ⟨[], rfl, hb.1, ?_⟩
    obtain ⟨p', _, hw⟩ := hb.2 none (.inl rfl)
    cases hw
    exact List.append_nil _

variable {itemLen : ℕ} {what : String}

/-- What is counted is no more than what is left, taken item by item. -/
theorem count_le {buf rest : Bytes} (h : d.count itemLen what buf = .ok (n, rest)) : n * itemLen ≤ rest.length := by
  unfold Decoder.count at h
  cases hbe : d.be 4 buf with
  | error e =>
    rw [bind_error hbe] at h
    cases h
  | ok p =>
    rw [bind_ok hbe] at h
    change (if p.2.length < p.1 * itemLen then _ else _ : Field ℕ) p.2 = _ at h
    split at h
    · cases h
    · rename_i hlen
      cases h
      exact not_lt.mp hlen

/-- A check of how much is left. -/
theorem sound_check {k : ℕ} {e : Bytes → Failure} (he : ∀ b, IsViolation (e b)) :
    Sound IsViolation (do
      let remaining ← get
      if remaining.length < k then throw (e remaining) else pure n : Field ℕ) fun _ => True := by
  have hrun : ∀ buf : Bytes, (do
      let remaining ← get
      if remaining.length < k then throw (e remaining) else pure n : Field ℕ) buf
        = if buf.length < k then .error (e buf) else .ok (n, buf) := by
    intro buf
    change (if buf.length < k then throw (e buf) else pure n : Field ℕ) buf = _
    split <;> rfl
  intro buf
  simp only [hrun]
  by_cases h : buf.length < k
  · rw [if_pos h]
    exact he buf
  · rw [if_neg h]
    refine ⟨List.suffix_refl buf, trivial, fun more => ?_⟩
    rw [if_neg (by rw [List.length_append]; omega)]

theorem sound_count (itemLen : ℕ) (what : String) :
    Sound IsViolation (d.count itemLen what) fun _ => True :=
  ((part_be (Q := True) 4).sound trivial).bind fun _ _ => sound_check fun _ => isViolation _

/-- Counting, and reserving what is counted, never panics where each item has a byte at least. -/
theorem sound_counted (hd : d.Serving) (hitem : 0 < itemLen) :
    Sound IsViolation (d.count itemLen what >>= fun n => d.reserve n >>= fun _ => pure n)
      fun _ => True := by
  have hserved : ∀ {buf rest : Bytes} {n : ℕ}, d.count itemLen what buf = .ok (n, rest) →
      (d.count itemLen what >>= fun n => d.reserve n >>= fun _ => pure n) buf = .ok (n, rest) := by
    intro buf rest n hn
    have hle : n ≤ rest.length := (Nat.le_mul_of_pos_right n hitem).trans (count_le hn)
    rw [bind_ok hn]
    change ((if d.serves n rest.length = true then pure () else throw .panic : Field Unit) >>=
      fun _ => pure n) rest = _
    rw [if_pos (hd n rest.length hle)]
    rfl
  apply Sound.of
  · intro buf n rest h
    cases hc : d.count itemLen what buf with
    | error e =>
      rw [bind_error hc] at h
      cases h
    | ok p =>
      rw [hserved hc] at h
      cases h
      obtain ⟨hsuffix, -, hmore⟩ := (sound_count itemLen what).ok hc
      exact ⟨hsuffix, trivial, fun more => hserved (hmore more)⟩
  · intro buf e h
    cases hc : d.count itemLen what buf with
    | error e' =>
      rw [bind_error hc] at h
      cases h
      exact (sound_count itemLen what).error hc
    | ok p =>
      rw [hserved hc] at h
      cases h

/-- A string behind its length. -/
theorem part_string : Part d Q (fun _ => True) Writer.string d.string where
  reads := by
    intro v b p p' _ hp hw
    obtain ⟨b, c, q, hb, hc, rfl⟩ := writeAll_cons_ok hw
    obtain ⟨c', e, q', hc', he, rfl⟩ := writeAll_cons_ok hc
    unfold Writer.count at hb
    split at hb
    · rename_i hlen
      cases hb
      cases hc'
      cases he
      refine ⟨hp, fun rest => ?_⟩
      unfold Decoder.string
      have hcount := @count_ok d 1 _ "string" hlen (v.1 ++ rest)
      rw [if_neg (by rw [List.length_append]; omega)] at hcount
      rw [List.append_nil, List.append_assoc, bind_ok hcount, bind_ok (reads_take rfl rest)]
      exact reads_utf8 v rest
    · cases hb
  takes := by
    refine (takes_count 1 "string").bind fun n b hb => ?_
    refine (takes_take n).bind fun s c hc => (takes_utf8 s).mono fun e v hv => ?_
    obtain ⟨rfl, rfl⟩ := hv
    obtain ⟨rfl, rfl⟩ := hc
    obtain ⟨hlen, rfl⟩ := hb
    refine ⟨trivial, fun p hp => ⟨p, hp, ?_⟩⟩
    rw [List.append_nil]
    have hcount : Writer.count v.1.length "string" p = .ok (beBytes 4 v.1.length, p) := by
      rw [Writer.count, if_pos hlen]
      rfl
    have hlast : writeAll [(pure v.1 : Writer)] p = .ok (v.1 ++ [], p) := rfl
    rw [List.append_nil] at hlast
    exact writeAll_cons hcount hlast
  sound _ := (sound_count 1 "string").bind fun n _ => (sound_take n).bind fun s _ => sound_utf8 s

/-- The items of a list, one after the other. -/
theorem Part.items (h : Part d Q P write read)
    {m : ℕ} (hm : ∀ {a b p p'}, P a → PageLen d.pageSize p → write a p = .ok (b, p') →
      m ≤ b.length) (as : List α) :
    ∀ {is : List ℕ} {b p p'}, is.length = as.length → (∀ a ∈ as, P a) → PageLen d.pageSize p →
      writeAll (as.map write) p = .ok (b, p') →
      PageLen d.pageSize p' ∧ as.length * m ≤ b.length ∧ Reads (readEach (fun _ => read) is) b as := by
  induction as with
  | nil =>
    intro is b p p' his _ hp hw
    obtain rfl := List.eq_nil_of_length_eq_zero his
    cases hw
    exact ⟨hp, by simp, Reads.pure []⟩
  | cons a as ih =>
    intro is b p p' his hP hp hw
    cases is with
    | nil => cases his
    | cons i is =>
      obtain ⟨b, c, q, hb, hc, rfl⟩ := writeAll_cons_ok hw
      have ha := hP a List.mem_cons_self
      obtain ⟨hq, hread⟩ := h.reads ha hp hb
      obtain ⟨hp', hlen, hreads⟩ := ih (Nat.succ.inj his) (fun x hx =>
        hP x (List.mem_cons_of_mem a hx)) hq hc
      refine ⟨hp', ?_, hread.bind hreads.map⟩
      have := hm ha hp hb
      rw [List.length_append, List.length_cons, Nat.succ_mul]
      omega

theorem writeAll_of_forall {ps : ℕ} {bs : List Bytes}
    {as : List α} (h : List.Forall₂ (fun b a => P a ∧ ∀ p, PageLen ps p →
      ∃ p', PageLen ps p' ∧ write a p = .ok (b, p')) bs as) :
    (∀ a ∈ as, P a) ∧ ∀ p, PageLen ps p → ∃ p', PageLen ps p' ∧
      writeAll (as.map write) p = .ok (bs.flatten, p') := by
  induction h with
  | nil => exact ⟨(fun _ ha => by cases ha), fun p hp => ⟨p, hp, rfl⟩⟩
  | cons hab _ ih =>
    refine ⟨List.forall_mem_cons.mpr ⟨hab.1, ih.1⟩, fun p hp => ?_⟩
    obtain ⟨q, hq, hb⟩ := hab.2 p hp
    obtain ⟨p', hp', hc⟩ := ih.2 q hq
    exact ⟨p', hp', writeAll_cons hb hc⟩

/-- A list behind its count, of items that take `itemLen` bytes each, and one at least. -/
theorem Part.list (h : Part d Q P write read) (hd : d.Serving) (what : String)
    (hm : ∀ {a b p p'}, P a → PageLen d.pageSize p → write a p = .ok (b, p') →
      max 1 itemLen ≤ b.length) (hitem : Q → 0 < itemLen) :
    Part d Q (fun as => ∀ a ∈ as, P a) (Writer.list what write) (d.list itemLen what read) where
  reads := by
    intro as b p p' hP hp hw
    obtain ⟨b, c, q, hb, hc, rfl⟩ := writeAll_cons_ok hw
    obtain ⟨c', e, q', hc', he, rfl⟩ := writeAll_cons_ok hc
    unfold Writer.count at hb
    split at hb
    · rename_i hlen
      cases hb
      cases he
      obtain ⟨hp', hbytes, hreads⟩ := h.items hm as List.length_range hP hp hc'
      have hone : as.length ≤ as.length * max 1 itemLen := Nat.le_mul_of_pos_right _ (by omega)
      have hitems : as.length * itemLen ≤ as.length * max 1 itemLen :=
        Nat.mul_le_mul_left _ (le_max_right _ _)
      refine ⟨hp', fun rest => ?_⟩
      have hcount := @count_ok d itemLen _ what hlen (c' ++ rest)
      rw [if_neg (by rw [List.length_append]; omega)] at hcount
      unfold Decoder.list
      rw [List.append_nil, List.append_assoc, bind_ok hcount]
      have hserve : d.reserve as.length (c' ++ rest) = .ok ((), c' ++ rest) := by
        change (if d.serves as.length (c' ++ rest).length = true then pure () else throw .panic :
          Field Unit) (c' ++ rest) = _
        rw [if_pos (hd _ _ (by rw [List.length_append]; omega))]
        rfl
      rw [bind_ok hserve]
      exact hreads rest
    · cases hb
  takes := by
    refine (takes_count itemLen what).bind fun n b hb => ?_
    have hreserve : Takes (d.reserve n) fun c _ => c = [] := by
      intro buf v rest hv
      change (if d.serves n buf.length = true then pure () else throw .panic : Field Unit) buf = _
        at hv
      split at hv
      · cases hv
        exact ⟨[], rfl, rfl⟩
      · cases hv
    refine hreserve.bind fun _ c hc => (Takes.each fun _ _ => h.takes).mono fun e as has => ?_
    subst hc
    obtain ⟨bs, rfl, hall, hlen⟩ := has
    obtain ⟨hlt, rfl⟩ := hb
    rw [List.length_range] at hlen
    obtain ⟨hP, hwrite⟩ := writeAll_of_forall hall
    refine ⟨hP, fun p hp => ?_⟩
    obtain ⟨p', hp', hitems⟩ := hwrite p hp
    have hcount : Writer.count as.length what p = .ok (beBytes 4 n, p) := by
      rw [Writer.count, hlen, if_pos hlt]
      rfl
    have hlast : writeAll [writeAll (as.map write)] p = .ok (bs.flatten ++ [], p') :=
      writeAll_cons hitems rfl
    rw [List.append_nil] at hlast
    exact ⟨p', hp', by rw [List.nil_append]; exact writeAll_cons hcount hlast⟩
  sound hQ := by
    have hitems : ∀ n, Sound IsViolation (readEach (fun _ => read) (List.range n))
        fun _ => True := fun n => (Sound.each fun _ _ => h.sound hQ).mono fun _ _ => trivial
    have hlist : Sound IsViolation ((d.count itemLen what >>= fun n => d.reserve n >>= fun _ =>
        pure n) >>= fun n => readEach (fun _ => read) (List.range n)) fun _ => True :=
      (sound_counted hd (hitem hQ)).bind fun n _ => hitems n
    simp only [bind_assoc, pure_bind] at hlist
    exact hlist

end Jed.Wire
