import Jed.Wire.Parts

/-!
# Frames come back

Every message is a part, so a frame is decoded to what was encoded, and what is decoded is encoded
to the same frame. Only a `pages` frame can make the decoder reserve more than the frame has bytes
left, and only before the page size is known.
-/

namespace Jed.Wire

open Readers Key Codec

variable {d : Decoder} {Q : Prop} {α : Type}

variable {P : α → Prop} {write : α → Writer} {read : Field α}

theorem Part.congr {R : α → Prop}
    (h : Part d Q P write read) (hPR : ∀ a, R a ↔ P a) : Part d Q R write read where
  reads ha := h.reads ((hPR _).mp ha)
  takes := h.takes.mono fun _ a ha => ⟨(hPR a).mpr ha.1, ha.2⟩
  sound := h.sound

/-! ## Fields -/

theorem part_credential : Part d Q (fun _ => True) Writer.credential d.credential where
  reads := by
    intro v b p p' _ hp hw
    match v with
    | none =>
      obtain ⟨hp', hread⟩ := (part_u8 (d := d) (Q := Q)).reads trivial hp hw
      exact ⟨hp', hread.check (Reads.pure none)⟩
    | some (.passphrase text) =>
      obtain ⟨b, c, q, hb, hc, rfl⟩ := writeAll_cons_ok hw
      obtain ⟨c', e, q', hc', he, rfl⟩ := writeAll_cons_ok hc
      cases he
      obtain ⟨hq, hkind⟩ := (part_u8 (d := d) (Q := Q)).reads trivial hp hb
      obtain ⟨hp', htext⟩ := (part_string (d := d) (Q := Q)).reads trivial hq hc'
      refine ⟨hp', hkind.bind ?_⟩
      rw [List.append_nil]
      exact htext.map
    | some (.key key) =>
      obtain ⟨b, c, q, hb, hc, rfl⟩ := writeAll_cons_ok hw
      obtain ⟨c', e, q', hc', he, rfl⟩ := writeAll_cons_ok hc
      cases he
      obtain ⟨hq, hkind⟩ := (part_u8 (d := d) (Q := Q)).reads trivial hp hb
      obtain ⟨hp', hkey⟩ := (part_sized (d := d) (Q := Q) 32).reads trivial hq hc'
      refine ⟨hp', hkind.bind ?_⟩
      rw [List.append_nil]
      exact hkey.map
  takes := by
    refine (part_u8 (Q := Q)).takes.bind fun kind b hb => ?_
    split
    · rename_i hkind
      subst hkind
      refine Takes.pure ⟨trivial, ?_⟩
      rw [List.append_nil]
      exact hb.2
    split
    · rename_i hkind
      subst hkind
      refine (part_string (Q := Q)).takes.bind fun text c hc =>
        Takes.pure ⟨trivial, fun p hp => ?_⟩
      obtain ⟨q, hq, hwrite⟩ := hb.2 p hp
      obtain ⟨p', hp', hwrite'⟩ := hc.2 q hq
      exact ⟨p', hp', writeAll_cons hwrite (writeAll_cons hwrite' rfl)⟩
    split
    · rename_i hkind
      subst hkind
      refine (part_sized (Q := Q) 32).takes.bind fun key c hc =>
        Takes.pure ⟨trivial, fun p hp => ?_⟩
      obtain ⟨q, hq, hwrite⟩ := hb.2 p hp
      obtain ⟨p', hp', hwrite'⟩ := hc.2 q hq
      exact ⟨p', hp', writeAll_cons hwrite (writeAll_cons hwrite' rfl)⟩
    · exact Takes.throw
  sound hQ := by
    refine (part_u8.sound hQ).bind fun kind _ => ?_
    split
    · exact Sound.pure trivial
    split
    · exact (part_string.sound hQ).bind fun _ _ => Sound.pure trivial
    split
    · exact ((part_sized 32).sound hQ).bind fun _ _ => Sound.pure trivial
    · exact Sound.throw (isViolation _)

theorem part_u32List (hd : d.Serving) : Part d Q (fun _ => True) Writer.u32List d.u32List :=
  (part_u32.list hd "u32_list" (fun _ _ hw => by cases hw; simp [beBytes_length])
    fun _ => Nat.succ_pos 3).congr fun _ => ⟨fun _ _ _ => trivial, fun _ => trivial⟩

theorem part_digestList (hd : d.Serving) :
    Part d Q (fun _ => True) Writer.digestList d.digestList := by
  have hitem : Part d Q (fun _ => True)
      (fun item : UInt32 × UInt64 => writeAll [Writer.u32 item.1, Writer.u64 item.2])
      (d.u32 >>= fun index => d.u64 >>= fun digest => pure (index, digest)) := by
    apply Part.field Writer.u32 d.u32 part_u32 Prod.fst (fun _ _ => trivial)
    intro _ _
    apply Part.field Writer.u64 d.u64 part_u64 Prod.snd (fun _ _ => trivial)
    intro _ _
    apply Part.done
    rintro ⟨index, digest⟩
    simp
  apply (hitem.list hd "digest_list" _ fun _ => Nat.succ_pos 11).congr
  · exact fun _ => ⟨fun _ _ _ => trivial, fun _ => trivial⟩
  · intro a s p p' _ _ hw
    obtain ⟨b, c, q, hb, hc, rfl⟩ := writeAll_cons_ok hw
    obtain ⟨c', e, q', hc', he, rfl⟩ := writeAll_cons_ok hc
    cases hb
    cases hc'
    cases he
    simp [beBytes_length]

variable {b : Bytes} {p' p : Option ℕ}

/-- A page that is written has a byte. -/
theorem page_length_pos {c : Bytes} (h : Writer.page b p = .ok (c, p')) :
    c = b ∧ 0 < b.length := by
  unfold Writer.page at h
  split at h
  · cases h
  · rename_i hne
    have hpos : 0 < b.length := by
      cases b with
      | nil => exact absurd rfl hne
      | cons => exact Nat.succ_pos _
    cases p with
    | none =>
      cases h
      exact ⟨rfl, hpos⟩
    | some len =>
      change (if len ≠ b.length then _ else _ : Writer) _ = _ at h
      split at h
      · cases h
      · cases h
        exact ⟨rfl, hpos⟩

theorem part_pageList (hd : d.Serving) :
    Part d (0 < d.pageSize) (fun pages => ∀ b ∈ pages, b.length = d.pageSize) Writer.pageList
      d.pageList := by
  apply part_page.list hd "page_list"
  · intro a b p p' hlen _ hw
    obtain ⟨rfl, hpos⟩ := page_length_pos hw
    omega
  · exact fun h => h

theorem part_indexedPageList (hd : d.Serving) :
    Part d Q (fun pages => ∀ item ∈ pages, item.page.length = d.pageSize) Writer.indexedPageList
      d.indexedPageList := by
  have hitem : Part d Q (fun item => item.page.length = d.pageSize)
      (fun item : IndexedPage => writeAll [Writer.u32 item.index, Writer.page item.page])
      (d.u32 >>= fun index => d.page >>= fun page => pure ⟨index, page⟩) := by
    apply Part.field Writer.u32 d.u32 part_u32 IndexedPage.index (fun _ _ => trivial)
    intro _ _
    apply Part.field Writer.page d.page part_page IndexedPage.page (fun _ h => h.1)
    intro _ hb
    apply Part.done
    rintro ⟨index, page⟩
    rw [IndexedPage.mk.injEq]
    constructor
    · rintro ⟨⟨_, rfl⟩, rfl⟩
      exact ⟨rfl, rfl⟩
    · rintro ⟨rfl, rfl⟩
      exact ⟨⟨hb, rfl⟩, rfl⟩
  apply hitem.list hd "indexed_page_list"
  · intro a s p p' _ _ hw
    obtain ⟨b, c, q, hb, hc, rfl⟩ := writeAll_cons_ok hw
    obtain ⟨c', e, q', hc', he, rfl⟩ := writeAll_cons_ok hc
    cases hb
    cases he
    obtain ⟨rfl, hpos⟩ := page_length_pos hc'
    rw [List.length_append, beBytes_length, List.append_nil]
    omega
  · exact fun _ => by omega

/-! ## Bodies -/

theorem part_hello : Part d Q (fun _ => True) (fun b : Hello => writeAll [Writer.u16
    b.protocolMin, Writer.u16 b.protocolMax, Writer.u16 b.formatVersion, Writer.u8 b.flags,
    Writer.string b.clientName, Writer.credential b.credential]) d.hello := by
  unfold Decoder.hello
  apply Part.field Writer.u16 d.u16 part_u16 Hello.protocolMin (fun _ _ => trivial)
  intro _ _
  apply Part.field Writer.u16 d.u16 part_u16 Hello.protocolMax (fun _ _ => trivial)
  intro _ _
  apply Part.field Writer.u16 d.u16 part_u16 Hello.formatVersion (fun _ _ => trivial)
  intro _ _
  apply Part.field Writer.u8 d.u8 part_u8 Hello.flags (fun _ _ => trivial)
  intro _ _
  apply Part.field Writer.string d.string part_string Hello.clientName (fun _ _ => trivial)
  intro _ _
  apply Part.field Writer.credential d.credential part_credential
    Hello.credential (fun _ _ => trivial)
  intro _ _
  apply Part.done
  intro x
  cases x
  simp [and_assoc]

theorem part_helloOk : Part d Q (fun _ => True) (fun b : HelloOk => writeAll [Writer.u16
    b.protocol, Writer.u16 b.formatVersion, Writer.u32 b.pageSize, Writer.u64 b.connectionId,
    Writer.u8 b.flags, Writer.u32 b.maxReadPages]) d.helloOk := by
  unfold Decoder.helloOk
  apply Part.field Writer.u16 d.u16 part_u16 HelloOk.protocol (fun _ _ => trivial)
  intro _ _
  apply Part.field Writer.u16 d.u16 part_u16 HelloOk.formatVersion (fun _ _ => trivial)
  intro _ _
  apply Part.field Writer.u32 d.u32 part_u32 HelloOk.pageSize (fun _ _ => trivial)
  intro _ _
  apply Part.field Writer.u64 d.u64 part_u64 HelloOk.connectionId (fun _ _ => trivial)
  intro _ _
  apply Part.field Writer.u8 d.u8 part_u8 HelloOk.flags (fun _ _ => trivial)
  intro _ _
  apply Part.field Writer.u32 d.u32 part_u32 HelloOk.maxReadPages (fun _ _ => trivial)
  intro _ _
  apply Part.done
  intro x
  cases x
  simp [and_assoc]

theorem part_beginRead : Part d Q (fun _ => True) (fun b : BeginRead => writeAll [Writer.sized
    b.incarnation, Writer.u64 b.lastTxid]) d.beginRead := by
  unfold Decoder.beginRead
  apply Part.field Writer.sized (d.sized 16) (part_sized 16)
    BeginRead.incarnation (fun _ _ => trivial)
  intro _ _
  apply Part.field Writer.u64 d.u64 part_u64 BeginRead.lastTxid (fun _ _ => trivial)
  intro _ _
  apply Part.done
  intro x
  cases x
  simp

theorem part_readBegun (hd : d.Serving) : Part d Q (fun b : ReadBegun => b.metaPage.length =
    d.pageSize) (fun b : ReadBegun => writeAll [Writer.sized b.incarnation, Writer.u64 b.txid,
    Writer.u8 b.invalidate, Writer.u32List b.indices, Writer.page b.metaPage]) d.readBegun := by
  unfold Decoder.readBegun
  apply Part.field Writer.sized (d.sized 16) (part_sized 16)
    ReadBegun.incarnation (fun _ _ => trivial)
  intro _ _
  apply Part.field Writer.u64 d.u64 part_u64 ReadBegun.txid (fun _ _ => trivial)
  intro _ _
  apply Part.field Writer.u8 d.u8 part_u8 ReadBegun.invalidate (fun _ _ => trivial)
  intro _ _
  apply Part.field Writer.u32List d.u32List (part_u32List hd)
    ReadBegun.indices (fun _ _ => trivial)
  intro _ _
  apply Part.field Writer.page d.page part_page ReadBegun.metaPage (fun _ h => h.1.1.1.1)
  intro _ hpage
  apply Part.done
  intro x
  constructor
  · rintro ⟨⟨⟨⟨⟨_, rfl⟩, rfl⟩, rfl⟩, rfl⟩, rfl⟩
    rfl
  · rintro rfl
    exact ⟨⟨⟨⟨⟨hpage, rfl⟩, rfl⟩, rfl⟩, rfl⟩, rfl⟩

theorem part_readPages (hd : d.Serving) : Part d Q (fun _ => True) (fun b : ReadPages => writeAll
    [Writer.u64 b.txid, Writer.u32List b.indices]) d.readPages := by
  unfold Decoder.readPages
  apply Part.field Writer.u64 d.u64 part_u64 ReadPages.txid (fun _ _ => trivial)
  intro _ _
  apply Part.field Writer.u32List d.u32List (part_u32List hd)
    ReadPages.indices (fun _ _ => trivial)
  intro _ _
  apply Part.done
  intro x
  cases x
  simp

theorem part_beginWrite : Part d Q (fun _ => True) (fun b : BeginWrite => writeAll [Writer.sized
    b.incarnation, Writer.u64 b.lastTxid, Writer.u64 b.lockTimeoutMs, Writer.u8 b.flags])
    d.beginWrite := by
  unfold Decoder.beginWrite
  apply Part.field Writer.sized (d.sized 16) (part_sized 16)
    BeginWrite.incarnation (fun _ _ => trivial)
  intro _ _
  apply Part.field Writer.u64 d.u64 part_u64 BeginWrite.lastTxid (fun _ _ => trivial)
  intro _ _
  apply Part.field Writer.u64 d.u64 part_u64 BeginWrite.lockTimeoutMs (fun _ _ => trivial)
  intro _ _
  apply Part.field Writer.u8 d.u8 part_u8 BeginWrite.flags (fun _ _ => trivial)
  intro _ _
  apply Part.done
  intro x
  cases x
  simp [and_assoc]

theorem part_writeBegun (hd : d.Serving) : Part d Q (fun b : WriteBegun => b.metaPage.length =
    d.pageSize) (fun b : WriteBegun => writeAll [Writer.sized b.incarnation, Writer.u64 b.txid,
    Writer.u8 b.invalidate, Writer.u32List b.indices, Writer.bool b.reuseGrant, Writer.page
    b.metaPage, Writer.digestList b.pending, Writer.u32List b.reuse]) d.writeBegun := by
  unfold Decoder.writeBegun
  apply Part.field Writer.sized (d.sized 16) (part_sized 16)
    WriteBegun.incarnation (fun _ _ => trivial)
  intro _ _
  apply Part.field Writer.u64 d.u64 part_u64 WriteBegun.txid (fun _ _ => trivial)
  intro _ _
  apply Part.field Writer.u8 d.u8 part_u8 WriteBegun.invalidate (fun _ _ => trivial)
  intro _ _
  apply Part.field Writer.u32List d.u32List (part_u32List hd)
    WriteBegun.indices (fun _ _ => trivial)
  intro _ _
  apply Part.field Writer.bool d.bool part_bool WriteBegun.reuseGrant (fun _ _ => trivial)
  intro _ _
  apply Part.field Writer.page d.page part_page WriteBegun.metaPage (fun _ h => h.1.1.1.1.1)
  intro _ hpage
  apply Part.field Writer.digestList d.digestList (part_digestList hd)
    WriteBegun.pending (fun _ _ => trivial)
  intro _ _
  apply Part.field Writer.u32List d.u32List (part_u32List hd) WriteBegun.reuse (fun _ _ => trivial)
  intro _ _
  apply Part.done
  intro x
  constructor
  · rintro ⟨⟨⟨⟨⟨⟨⟨⟨_, rfl⟩, rfl⟩, rfl⟩, rfl⟩, rfl⟩, rfl⟩, rfl⟩, rfl⟩
    rfl
  · rintro rfl
    exact ⟨⟨⟨⟨⟨⟨⟨⟨hpage, rfl⟩, rfl⟩, rfl⟩, rfl⟩, rfl⟩, rfl⟩, rfl⟩, rfl⟩

theorem part_commitBegin (hd : d.Serving) : Part d Q (fun b : CommitBegin => b.metaPage.length =
    d.pageSize ∧ ∀ item ∈ b.manifestPages, item.page.length = d.pageSize) (fun b : CommitBegin =>
    writeAll [Writer.u64 b.txid, Writer.page b.metaPage, Writer.indexedPageList b.manifestPages])
    d.commitBegin := by
  unfold Decoder.commitBegin
  apply Part.field Writer.u64 d.u64 part_u64 CommitBegin.txid (fun _ _ => trivial)
  intro _ _
  apply Part.field Writer.page d.page part_page CommitBegin.metaPage (fun _ h => h.1.1)
  intro _ hpage
  apply Part.field Writer.indexedPageList d.indexedPageList (part_indexedPageList hd)
    CommitBegin.manifestPages (fun _ h => h.1.1.2)
  intro _ hpages
  apply Part.done
  intro x
  constructor
  · rintro ⟨⟨⟨_, rfl⟩, rfl⟩, rfl⟩
    rfl
  · rintro rfl
    exact ⟨⟨⟨⟨hpage, hpages⟩, rfl⟩, rfl⟩, rfl⟩

theorem part_commitStatus : Part d Q (fun _ => True) (fun b : CommitStatus => writeAll [Writer.u64
    b.txid, Writer.u64 b.digest]) d.commitStatus := by
  unfold Decoder.commitStatus
  apply Part.field Writer.u64 d.u64 part_u64 CommitStatus.txid (fun _ _ => trivial)
  intro _ _
  apply Part.field Writer.u64 d.u64 part_u64 CommitStatus.digest (fun _ _ => trivial)
  intro _ _
  apply Part.done
  intro x
  cases x
  simp

theorem part_notice : Part d Q (fun _ => True) (fun b : Notice => writeAll [Writer.u8 b.kind,
    Writer.u64 b.connectionId]) d.notice := by
  unfold Decoder.notice
  apply Part.field Writer.u8 d.u8 part_u8 Notice.kind (fun _ _ => trivial)
  intro _ _
  apply Part.field Writer.u64 d.u64 part_u64 Notice.connectionId (fun _ _ => trivial)
  intro _ _
  apply Part.done
  intro x
  cases x
  simp

theorem part_errorReply : Part d Q (fun _ => True) (fun b : ErrorReply => writeAll
    [Writer.sqlstate b.sqlstate, Writer.string b.message, Writer.string b.detail, Writer.u8
    b.flags]) d.errorReply := by
  unfold Decoder.errorReply
  apply Part.field Writer.sqlstate d.sqlstate part_sqlstate
    ErrorReply.sqlstate (fun _ _ => trivial)
  intro _ _
  apply Part.field Writer.string d.string part_string ErrorReply.message (fun _ _ => trivial)
  intro _ _
  apply Part.field Writer.string d.string part_string ErrorReply.detail (fun _ _ => trivial)
  intro _ _
  apply Part.field Writer.u8 d.u8 part_u8 ErrorReply.flags (fun _ _ => trivial)
  intro _ _
  apply Part.done
  intro x
  cases x
  simp [and_assoc]

/-! ## Messages -/

/-- The pages of the message have `ps` bytes each. -/
def PagesOf (ps : ℕ) : Message → Prop
  | .readBegun b => b.metaPage.length = ps
  | .pages pages => ∀ page ∈ pages, page.length = ps
  | .writeBegun b => b.metaPage.length = ps
  | .commitBegin b => b.metaPage.length = ps ∧ ∀ item ∈ b.manifestPages, item.page.length = ps
  | .commitPages pages => ∀ item ∈ pages, item.page.length = ps
  | _ => True

variable {m : Message}

theorem reads_body (hd : d.Serving)
    (hm : PagesOf d.pageSize m) (hp : PageLen d.pageSize p) (hw : Writer.body m p = .ok (b, p')) :
    Reads (d.body m.code) b m := by
  cases m with
  | hello _ => exact ((part_hello (Q := True)).reads trivial hp hw).2.map
  | helloOk _ => exact ((part_helloOk (Q := True)).reads trivial hp hw).2.map
  | beginRead _ => exact ((part_beginRead (Q := True)).reads trivial hp hw).2.map
  | readBegun _ => exact ((part_readBegun (Q := True) hd).reads hm hp hw).2.map
  | readPages _ => exact ((part_readPages (Q := True) hd).reads trivial hp hw).2.map
  | pages _ => exact ((part_pageList hd).reads hm hp hw).2.map
  | endRead _ => exact ((part_u64 (Q := True)).reads trivial hp hw).2.map
  | beginWrite _ => exact ((part_beginWrite (Q := True)).reads trivial hp hw).2.map
  | writeBegun _ => exact ((part_writeBegun (Q := True) hd).reads hm hp hw).2.map
  | commitBegin _ => exact ((part_commitBegin (Q := True) hd).reads hm hp hw).2.map
  | commitPages _ => exact ((part_indexedPageList (Q := True) hd).reads hm hp hw).2.map
  | commitEnd | abort | requestOwnership =>
    cases hw
    exact Reads.pure _
  | committed _ => exact ((part_u64 (Q := True)).reads trivial hp hw).2.map
  | commitStatus _ => exact ((part_commitStatus (Q := True)).reads trivial hp hw).2.map
  | commitStatusReply _ => exact ((part_u8 (Q := True)).reads trivial hp hw).2.map
  | ownershipReply _ => exact ((part_u8 (Q := True)).reads trivial hp hw).2.map
  | notice _ => exact ((part_notice (Q := True)).reads trivial hp hw).2.map
  | error _ => exact ((part_errorReply (Q := True)).reads trivial hp hw).2.map

theorem Part.takes_message
    (h : Part d Q P write read) {code : UInt8} (f : α → Message) (hcode : ∀ a, (f a).code = code)
    (hP : ∀ a, P a → PagesOf d.pageSize (f a)) (hwrite : ∀ a, Writer.body (f a) = write a) :
    Takes (read >>= fun a => pure (f a)) fun b m => (m.code = code ∧ PagesOf d.pageSize m) ∧
      ∀ p, PageLen d.pageSize p → ∃ p', PageLen d.pageSize p' ∧ Writer.body m p = .ok (b, p') := by
  refine h.takes.bind fun a b hb => Takes.pure ⟨⟨hcode a, hP a hb.1⟩, ?_⟩
  rw [List.append_nil, hwrite]
  exact hb.2

theorem Part.sound_message (h : Part d Q P write read) (hQ : Q) (f : α → Message) :
    Sound IsViolation (read >>= fun a => pure (f a)) fun _ => True :=
  (h.sound hQ).bind fun _ _ => Sound.pure trivial

theorem takes_body (hd : d.Serving) (code : UInt8) :
    Takes (d.body code) fun b m => (m.code = code ∧ PagesOf d.pageSize m) ∧
      ∀ p, PageLen d.pageSize p → ∃ p', PageLen d.pageSize p' ∧ Writer.body m p = .ok (b, p') := by
  have is : ∀ c : UInt8, code.toNat = c.toNat → code = c := fun _ h => UInt8.toNat_inj.mp h
  unfold Decoder.body
  split
  case h_1 h =>
    obtain rfl := is 0x01 h
    exact (part_hello (Q := True)).takes_message .hello
      (fun _ => rfl) (fun _ _ => trivial) fun _ => rfl
  case h_2 h =>
    obtain rfl := is 0x41 h
    exact (part_helloOk (Q := True)).takes_message .helloOk
      (fun _ => rfl) (fun _ _ => trivial) fun _ => rfl
  case h_3 h =>
    obtain rfl := is 0x02 h
    exact (part_beginRead (Q := True)).takes_message .beginRead
      (fun _ => rfl) (fun _ _ => trivial) fun _ => rfl
  case h_4 h =>
    obtain rfl := is 0x42 h
    exact (part_readBegun (Q := True) hd).takes_message .readBegun (fun _ => rfl) (fun _ h => h)
      fun _ => rfl
  case h_5 h =>
    obtain rfl := is 0x03 h
    exact (part_readPages (Q := True) hd).takes_message .readPages
      (fun _ => rfl) (fun _ _ => trivial) fun _ => rfl
  case h_6 h =>
    obtain rfl := is 0x43 h
    exact (part_pageList hd).takes_message .pages (fun _ => rfl) (fun _ h => h) fun _ => rfl
  case h_7 h =>
    obtain rfl := is 0x04 h
    exact (part_u64 (Q := True)).takes_message .endRead
      (fun _ => rfl) (fun _ _ => trivial) fun _ => rfl
  case h_8 h =>
    obtain rfl := is 0x05 h
    exact (part_beginWrite (Q := True)).takes_message .beginWrite
      (fun _ => rfl) (fun _ _ => trivial) fun _ => rfl
  case h_9 h =>
    obtain rfl := is 0x45 h
    exact (part_writeBegun (Q := True) hd).takes_message .writeBegun (fun _ => rfl) (fun _ h => h)
      fun _ => rfl
  case h_10 h =>
    obtain rfl := is 0x06 h
    exact (part_commitBegin (Q := True) hd).takes_message .commitBegin (fun _ => rfl) (fun _ h => h)
      fun _ => rfl
  case h_11 h =>
    obtain rfl := is 0x07 h
    exact (part_indexedPageList (Q := True) hd).takes_message .commitPages
      (fun _ => rfl) (fun _ h => h) fun _ => rfl
  case h_12 h =>
    obtain rfl := is 0x08 h
    exact Takes.pure ⟨⟨rfl, trivial⟩, fun p hp => ⟨p, hp, rfl⟩⟩
  case h_13 h =>
    obtain rfl := is 0x48 h
    exact (part_u64 (Q := True)).takes_message .committed
      (fun _ => rfl) (fun _ _ => trivial) fun _ => rfl
  case h_14 h =>
    obtain rfl := is 0x09 h
    exact Takes.pure ⟨⟨rfl, trivial⟩, fun p hp => ⟨p, hp, rfl⟩⟩
  case h_15 h =>
    obtain rfl := is 0x0a h
    exact (part_commitStatus (Q := True)).takes_message .commitStatus
      (fun _ => rfl) (fun _ _ => trivial) fun _ => rfl
  case h_16 h =>
    obtain rfl := is 0x4a h
    exact (part_u8 (Q := True)).takes_message .commitStatusReply
      (fun _ => rfl) (fun _ _ => trivial) fun _ => rfl
  case h_17 h =>
    obtain rfl := is 0x0b h
    exact Takes.pure ⟨⟨rfl, trivial⟩, fun p hp => ⟨p, hp, rfl⟩⟩
  case h_18 h =>
    obtain rfl := is 0x4b h
    exact (part_u8 (Q := True)).takes_message .ownershipReply
      (fun _ => rfl) (fun _ _ => trivial) fun _ => rfl
  case h_19 h =>
    obtain rfl := is 0x7e h
    exact (part_notice (Q := True)).takes_message .notice
      (fun _ => rfl) (fun _ _ => trivial) fun _ => rfl
  case h_20 h =>
    obtain rfl := is 0x7f h
    exact (part_errorReply (Q := True)).takes_message .error
      (fun _ => rfl) (fun _ _ => trivial) fun _ => rfl
  all_goals exact Takes.throw

theorem sound_body (hd : d.Serving) {code : UInt8} (hps : code = 0x43 → 0 < d.pageSize) :
    Sound IsViolation (d.body code) fun _ => True := by
  unfold Decoder.body
  split
  case h_1 => exact part_hello.sound_message trivial _
  case h_2 => exact part_helloOk.sound_message trivial _
  case h_3 => exact part_beginRead.sound_message trivial _
  case h_4 => exact (part_readBegun hd).sound_message trivial _
  case h_5 => exact (part_readPages hd).sound_message trivial _
  case h_6 h =>
    have hcode : code = 0x43 := UInt8.toNat_inj.mp h
    exact (part_pageList hd).sound_message (hps hcode) _
  case h_7 => exact part_u64.sound_message trivial _
  case h_8 => exact part_beginWrite.sound_message trivial _
  case h_9 => exact (part_writeBegun hd).sound_message trivial _
  case h_10 => exact (part_commitBegin hd).sound_message trivial _
  case h_11 => exact (part_indexedPageList hd).sound_message trivial _
  case h_12 => exact Sound.pure trivial
  case h_13 => exact part_u64.sound_message trivial _
  case h_14 => exact Sound.pure trivial
  case h_15 => exact part_commitStatus.sound_message trivial _
  case h_16 => exact part_u8.sound_message trivial _
  case h_17 => exact Sound.pure trivial
  case h_18 => exact part_u8.sound_message trivial _
  case h_19 => exact part_notice.sound_message trivial _
  case h_20 => exact part_errorReply.sound_message trivial _
  all_goals exact Sound.throw (isViolation _)

/-! ## Frames -/

/-- What stands behind the length field. -/
def Decoder.rest (d : Decoder) : Field (UInt32 × Message) :=
  d.u8 >>= fun code => d.u32 >>= fun requestId => d.body code >>= fun m => pure (requestId, m)

/-- What a frame with a right length field is decoded to. -/
def Decoder.last : Except Failure ((UInt32 × Message) × Bytes) → Except Failure (UInt32 × Message)
  | .error e => .error e
  | .ok ((requestId, m), r) =>
    if r.length ≠ 0 then
      .error (violation s!"page-service {m.name} frame has {r.length} bytes after its last field")
    else .ok (requestId, m)

variable {serves : ℕ → ℕ → Bool} {ps : ℕ}

/-- A right length field, and what stands behind it. -/
def Framed (frame after : Bytes) : Prop :=
  5 ≤ after.length ∧ after.length ≤ MAX_FRAME_LENGTH ∧ frame = beBytes 4 after.length ++ after

variable {frame : Bytes}

theorem decodeFrame_framed {after : Bytes} (h : Framed frame after) :
    decodeFrame serves ps frame =
      Decoder.last (Decoder.rest ⟨after.length, ps, serves⟩ after) := by
  obtain ⟨hmin, hmax, rfl⟩ := h
  have hlt : after.length < 256 ^ 4 := by
    have : MAX_FRAME_LENGTH < 256 ^ 4 := by decide
    omega
  have hnat : beNat (beBytes 4 after.length) = after.length := by
    rw [beNat_beBytes, Nat.mod_eq_of_lt hlt]
  have hcheck : checkLength after.length = .ok () := if_pos ⟨hmin, hmax⟩
  unfold decodeFrame Decoder.rest
  rw [if_neg (by rw [List.length_append, beBytes_length]; omega),
    List.take_left' (beBytes_length _ _), List.drop_left' (beBytes_length _ _), hnat]
  dsimp only
  rw [hcheck]
  change (if _ then _ else _ : Except _ _) = _
  rw [if_neg (lt_irrefl _), if_neg (lt_irrefl _)]
  generalize (⟨after.length, ps, serves⟩ : Decoder) = d
  cases hcode : d.u8 after with
  | error e =>
    rw [bind_error hcode]
    rfl
  | ok x =>
    rw [bind_ok hcode]
    change (d.u32 x.2 >>= _) = _
    cases hid : d.u32 x.2 with
    | error e =>
      rw [bind_error hid]
      rfl
    | ok y =>
      rw [bind_ok hid]
      change (d.body x.1 y.2 >>= _) = _
      cases hbody : d.body x.1 y.2 with
      | error e =>
        rw [bind_error hbody]
        rfl
      | ok z =>
        rw [bind_ok hbody]
        rfl

/-- A frame without a right length field is a violation. -/
theorem decodeFrame_not_framed {frame : Bytes} (h : ∀ after, ¬Framed frame after) :
    ∃ message, decodeFrame serves ps frame = .error (violation message) := by
  unfold decodeFrame
  by_cases hshort : frame.length < 4
  · exact ⟨_, if_pos hshort⟩
  rw [if_neg hshort]
  dsimp only
  by_cases hcheck : 5 ≤ beNat (frame.take 4) ∧ beNat (frame.take 4) ≤ MAX_FRAME_LENGTH
  · have hok : checkLength (beNat (frame.take 4)) = .ok () := if_pos hcheck
    rw [hok]
    change ∃ message, (if beNat (frame.take 4) < (frame.drop 4).length then _ else
      if (frame.drop 4).length < beNat (frame.take 4) then _ else _ : Except _ _) = _
    by_cases hmore : beNat (frame.take 4) < (frame.drop 4).length
    · exact ⟨_, if_pos hmore⟩
    rw [if_neg hmore]
    by_cases hless : (frame.drop 4).length < beNat (frame.take 4)
    · exact ⟨_, if_pos hless⟩
    have hlen : beNat (frame.take 4) = (frame.drop 4).length := by omega
    rw [hlen] at hcheck
    have hfield : (frame.take 4).length = 4 := List.length_take_of_le (not_lt.mp hshort)
    have hbytes := beBytes_beNat (frame.take 4)
    rw [hfield, hlen] at hbytes
    exact absurd ⟨hcheck.1, hcheck.2, by rw [hbytes, List.take_append_drop]⟩ (h (frame.drop 4))
  · have herr : ∃ message, checkLength (beNat (frame.take 4)) = .error (violation message) :=
      ⟨_, if_neg hcheck⟩
    obtain ⟨message, herr⟩ := herr
    rw [herr]
    exact ⟨message, rfl⟩

variable {requestId : UInt32}

theorem reads_rest (hd : d.Serving)
    (hm : PagesOf d.pageSize m) (hw : Writer.body m none = .ok (b, p')) :
    Reads d.rest (m.code :: (beBytes 4 requestId.toNat ++ b)) (requestId, m) := by
  have hcode : Reads d.u8 [m.code] m.code :=
    ((part_u8 (Q := True)).reads (p := none) trivial (.inl rfl) (by
      rw [Writer.u8, Writer.be, beBytes_one]
      rfl)).2
  have hid : Reads d.u32 (beBytes 4 requestId.toNat) requestId :=
    ((part_u32 (Q := True)).reads (p := none) trivial (.inl rfl) rfl).2
  exact hcode.bind (hid.bind (reads_body hd hm (.inl rfl) hw).map)

theorem takes_rest (hd : d.Serving) : Takes d.rest fun b v => PagesOf d.pageSize v.2 ∧
    ∃ body p', Writer.body v.2 none = .ok (body, p') ∧
      b = v.2.code :: (beBytes 4 v.1.toNat ++ body) := by
  refine (part_u8 (Q := True)).takes.bind fun code b hb => ?_
  refine (part_u32 (Q := True)).takes.bind fun requestId c hc => ?_
  refine (takes_body hd code).bind fun m e he => Takes.pure ⟨he.1.2, ?_⟩
  obtain ⟨_, _, hcode⟩ := hb.2 none (.inl rfl)
  obtain ⟨_, _, hid⟩ := hc.2 none (.inl rfl)
  obtain ⟨p', _, hbody⟩ := he.2 none (.inl rfl)
  refine ⟨e, p', hbody, ?_⟩
  cases hcode
  cases hid
  rw [he.1.1, List.append_nil, beBytes_one]
  rfl

/-- What a frame that is encoded is. -/
theorem encodeFrame_ok :
    encodeFrame requestId m = .ok frame ↔ ∃ body p', Writer.body m none = .ok (body, p') ∧
      Framed frame (m.code :: (beBytes 4 requestId.toNat ++ body)) := by
  unfold encodeFrame
  change (Writer.body m none >>= _) = _ ↔ _
  cases hbody : Writer.body m none with
  | error e =>
    constructor
    · intro h
      cases h
    · rintro ⟨_, _, h, _⟩
      cases h
  | ok x =>
    obtain ⟨body, p'⟩ := x
    change (if MAX_FRAME_LENGTH < (m.code :: (beBytes 4 requestId.toNat ++ body)).length then _
      else Except.ok _ : Except Failure Bytes) = _ ↔ _
    have hmin : 5 ≤ (m.code :: (beBytes 4 requestId.toNat ++ body)).length := by
      rw [List.length_cons, List.length_append, beBytes_length]
      omega
    constructor
    · intro h
      split at h
      · cases h
      · rename_i hmax
        cases h
        exact ⟨body, p', rfl, hmin, not_lt.mp hmax, rfl⟩
    · rintro ⟨_, _, h, -, hmax, rfl⟩
      cases h
      rw [if_neg (not_lt.mpr hmax)]

theorem decodeFrame_encodeFrame (hserves : Serves serves)
    (hm : PagesOf ps m) (h : encodeFrame requestId m = .ok frame) :
    decodeFrame serves ps frame = .ok (requestId, m) := by
  obtain ⟨body, p', hbody, hframed⟩ := encodeFrame_ok.mp h
  rw [decodeFrame_framed hframed]
  rw [(reads_rest (d := ⟨_, ps, serves⟩) hserves hm hbody).run]
  rfl

/-- What is decoded is encoded to the same frame. -/
theorem encodeFrame_decodeFrame (hserves : Serves serves)
    (h : decodeFrame serves ps frame = .ok (requestId, m)) :
    PagesOf ps m ∧ encodeFrame requestId m = .ok frame := by
  by_cases hframed : ∃ after, Framed frame after
  · obtain ⟨after, hframed⟩ := hframed
    rw [decodeFrame_framed hframed] at h
    cases hrest : Decoder.rest ⟨after.length, ps, serves⟩ after with
    | error e =>
      rw [hrest] at h
      cases h
    | ok x =>
      obtain ⟨v, r⟩ := x
      rw [hrest] at h
      change (if r.length ≠ 0 then _ else Except.ok v) = _ at h
      split at h
      · cases h
      · rename_i hr
        cases h
        obtain ⟨b, rfl, hm, body, p', hbody, hb⟩ :=
          takes_rest (d := ⟨_, ps, serves⟩) hserves _ _ _ hrest
        obtain rfl := List.eq_nil_of_length_eq_zero (not_not.mp hr)
        rw [List.append_nil, hb] at hframed
        exact ⟨hm, encodeFrame_ok.mpr ⟨body, p', hbody, hframed⟩⟩
  · obtain ⟨message, herr⟩ := @decodeFrame_not_framed serves ps frame
      fun after hafter => hframed ⟨after, hafter⟩
    rw [herr] at h
    cases h

/-! ## Reservations -/

/-- A `pages` frame whose count is above the bytes behind it. -/
def ForgedPages (frame : Bytes) : Prop := ∃ (requestId : UInt32) (count : ℕ) (body : Bytes),
  Framed frame (0x43 :: (beBytes 4 requestId.toNat ++ (beBytes 4 count ++ body))) ∧
    body.length < count ∧ count < 2 ^ 32

variable {buf : Bytes}

theorem reserve_ok (hd : d.Serving) {n : ℕ} (h : n ≤ buf.length) :
    d.reserve n buf = .ok ((), buf) := by
  change (if d.serves n buf.length = true then pure () else throw .panic : Field Unit) buf = _
  rw [if_pos (hd n buf.length h)]
  rfl

theorem not_violation_panic : ¬IsViolation .panic := by
  rintro ⟨message, h⟩
  cases h

/-- A panic behind a reader that never panics. -/
theorem panic_bind {β : Type} (h : Sound IsViolation read P)
    {f : α → Field β} (hpanic : (read >>= f) buf = .error .panic) :
    ∃ v rest, read buf = .ok (v, rest) ∧ f v rest = .error .panic := by
  cases hread : read buf with
  | error e =>
    rw [bind_error hread] at hpanic
    cases hpanic
    exact absurd (h.error hread) not_violation_panic
  | ok x =>
    rw [bind_ok hread] at hpanic
    exact ⟨x.1, x.2, rfl, hpanic⟩

theorem panic_map {β : Type} {f : α → β}
    (h : (read >>= fun a => pure (f a)) buf = .error .panic) : read buf = .error .panic := by
  cases hread : read buf with
  | error e =>
    rw [bind_error hread] at h
    cases h
    rfl
  | ok x =>
    rw [bind_ok hread] at h
    cases h

/-- With no page size, a list of pages panics only when its count is above what is left. -/
theorem pageList_panic (hd : d.Serving) (h : d.pageList buf = .error .panic) :
    ∃ count body, buf = beBytes 4 count ++ body ∧ body.length < count ∧ count < 2 ^ 32 := by
  obtain ⟨count, body, hcount, hitems⟩ := panic_bind (sound_count d.pageSize "page_list") h
  obtain ⟨b, rfl, hlt, rfl⟩ := takes_count d.pageSize "page_list" _ _ _ hcount
  refine ⟨count, body, rfl, ?_, hlt⟩
  by_contra hle
  rw [bind_ok (reserve_ok hd (not_lt.mp hle))] at hitems
  have hpages : Sound IsViolation (readEach (fun _ => d.page) (List.range count)) fun _ => True :=
    (Sound.each fun _ _ => (part_page (Q := True)).sound trivial).mono fun _ _ => trivial
  exact not_violation_panic (hpages.error hitems)

/-- Only a forged `pages` frame makes the decoder reserve more than there are bytes left. -/
theorem decodeFrame_panic (hserves : Serves serves)
    (h : decodeFrame serves ps frame = .error .panic) : ps = 0 ∧ ForgedPages frame := by
  by_cases hframed : ∃ after, Framed frame after
  · obtain ⟨after, hframed⟩ := hframed
    rw [decodeFrame_framed hframed] at h
    have hrest : Decoder.rest ⟨after.length, ps, serves⟩ after = .error .panic := by
      cases hrest : Decoder.rest ⟨after.length, ps, serves⟩ after with
      | error e =>
        rw [hrest] at h
        cases h
        rfl
      | ok x =>
        rw [hrest] at h
        change (if _ then _ else _ : Except Failure (UInt32 × Message)) = _ at h
        split at h <;> cases h
    obtain ⟨code, r, hcode, h⟩ := panic_bind ((part_u8 (Q := True)).sound trivial) hrest
    obtain ⟨requestId, r', hid, h⟩ := panic_bind ((part_u32 (Q := True)).sound trivial) h
    have hbody : Decoder.body ⟨after.length, ps, serves⟩ code r' = .error .panic := panic_map h
    by_cases hps : code = 0x43 → 0 < ps
    · exact absurd ((sound_body (d := ⟨_, ps, serves⟩) hserves hps).error hbody) not_violation_panic
    · obtain ⟨rfl, hzero⟩ := Classical.not_imp.mp hps
      have hlist : Decoder.pageList ⟨after.length, ps, serves⟩ r' = .error .panic := by
        change (Decoder.pageList _ >>= fun pages => pure (Message.pages pages)) r' = _ at hbody
        exact panic_map hbody
      obtain ⟨count, body, rfl, hlt, hcount⟩ :=
        pageList_panic (d := ⟨_, ps, serves⟩) hserves hlist
      obtain ⟨b, rfl, _, hb⟩ := (part_u8 (Q := True)).takes _ _ _ hcode
      obtain ⟨c, rfl, _, hc⟩ := (part_u32 (Q := True)).takes _ _ _ hid
      obtain ⟨_, _, hbwrite⟩ := hb none (.inl rfl)
      obtain ⟨_, _, hcwrite⟩ := hc none (.inl rfl)
      cases hbwrite
      cases hcwrite
      rw [beBytes_one] at hframed
      exact ⟨Nat.eq_zero_of_not_pos hzero, requestId, count, body, hframed, hlt, hcount⟩
  · obtain ⟨message, herr⟩ := @decodeFrame_not_framed serves ps frame
      fun after hafter => hframed ⟨after, hafter⟩
    rw [herr] at h
    cases h

/-- An allocator that serves no more items than there are bytes left. -/
def strict (items remaining : ℕ) : Bool := items ≤ remaining

theorem serves_strict : Serves strict := fun _ _ h => decide_eq_true h

theorem decodeFrame_forged (h : ForgedPages frame) :
    decodeFrame strict 0 frame = .error .panic := by
  obtain ⟨requestId, count, body, hframed, hcount, hlt⟩ := h
  rw [decodeFrame_framed hframed]
  generalize (0x43 :: (beBytes 4 requestId.toNat ++ (beBytes 4 count ++ body)) : Bytes).length = n
  have hcode : Reads (Decoder.u8 ⟨n, 0, strict⟩) (beBytes 1 (0x43 : UInt8).toNat) 0x43 :=
    ((part_u8 (Q := True)).reads (p := none) trivial (.inl rfl) rfl).2
  rw [beBytes_one] at hcode
  have hid : Reads (Decoder.u32 ⟨n, 0, strict⟩) (beBytes 4 requestId.toNat) requestId :=
    ((part_u32 (Q := True)).reads (p := none) trivial (.inl rfl) rfl).2
  have hread := @count_ok ⟨n, 0, strict⟩ 0 count "page_list" hlt body
  rw [if_neg (by omega)] at hread
  have hreserve : Decoder.reserve ⟨n, 0, strict⟩ count body = .error .panic := by
    change (if strict count body.length = true then pure () else throw .panic : Field Unit) body = _
    rw [if_neg (by simp [strict, hcount])]
    rfl
  have hlist : Decoder.pageList ⟨n, 0, strict⟩ (beBytes 4 count ++ body) = .error .panic := by
    change (Decoder.count ⟨n, 0, strict⟩ 0 "page_list" >>= _) _ = _
    rw [bind_ok hread]
    exact bind_error hreserve
  have hbody : Decoder.body ⟨n, 0, strict⟩ 0x43 (beBytes 4 count ++ body) = .error .panic := by
    change (Decoder.pageList ⟨n, 0, strict⟩ >>= _) _ = _
    exact bind_error hlist
  unfold Decoder.rest
  rw [show (0x43 :: (beBytes 4 requestId.toNat ++ (beBytes 4 count ++ body)) : Bytes) =
    [0x43] ++ (beBytes 4 requestId.toNat ++ (beBytes 4 count ++ body)) from rfl,
    bind_ok (hcode _), bind_ok (hid _), bind_error hbody]
  rfl

/-- What is asked of the codec on a frame, whatever the allocator: a message it is the frame of is
    decoded from it, a message decoded from it is encoded to it, and nothing is reserved beyond the
    bytes that are left. -/
structure FrameContract (ps : ℕ) (frame : Bytes) : Prop where
  decodes : ∀ serves, Serves serves → ∀ requestId m, PagesOf ps m →
    encodeFrame requestId m = .ok frame → decodeFrame serves ps frame = .ok (requestId, m)
  encodes : ∀ serves, Serves serves → ∀ requestId m,
    decodeFrame serves ps frame = .ok (requestId, m) → encodeFrame requestId m = .ok frame
  reserves : ∀ serves, Serves serves → decodeFrame serves ps frame ≠ .error .panic

/-- The codec does what is asked of it on every frame, but for a `pages` frame with a forged count
    before the page size is known. -/
theorem frame_contract_iff (ps : ℕ) (frame : Bytes) :
    FrameContract ps frame ↔ ¬(ps = 0 ∧ ForgedPages frame) := by
  constructor
  · rintro h ⟨rfl, hforged⟩
    exact h.reserves strict serves_strict (decodeFrame_forged hforged)
  · intro h
    constructor
    · intro serves hserves requestId m hm henc
      exact decodeFrame_encodeFrame hserves hm henc
    · intro serves hserves requestId m hdec
      exact (encodeFrame_decodeFrame hserves hdec).2
    · intro serves hserves hpanic
      exact h (decodeFrame_panic hserves hpanic)

/-- Thirteen bytes that reserve 4294967295 pages. -/
theorem pages_reserved_by_thirteen_bytes : ¬FrameContract 0
    [0x00, 0x00, 0x00, 0x09, 0x43, 0x00, 0x00, 0x00, 0x01, 0xff, 0xff, 0xff, 0xff] := by
  intro h
  apply h.reserves strict serves_strict
  exact decodeFrame_forged
    ⟨1, 2 ^ 32 - 1, [], ⟨by decide, by decide, by decide⟩, by decide, by decide⟩

end Jed.Wire
