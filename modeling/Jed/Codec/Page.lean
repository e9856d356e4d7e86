import Jed.Codec.Read
import Jed.PMap.Size

/-!
# Body pages

The bytes of a body page (`format.rs:235-376`, `5171-5182`, `5694-5715`): a header with the page's
checksum, and its payload. An encrypted page is sealed under the database's page key
(`crypto.rs:255-290`), and a pointer to it binds the tag of what it was sealed to.
-/

namespace Jed.PMap

/-- `Cap::chain` (`format.rs:220-222`): the content of a chain page. -/
def Cap.chain (cap : Cap) : Nat := cap.c - cap.tag

end Jed.PMap

namespace Jed.Codec

open Key PMap

def CRC32_IEEE_POLYNOMIAL : UInt32 := 0xedb88320

/-- One bit of a table entry. -/
def crc32Bit (crc : UInt32) : UInt32 := (crc >>> 1) ^^^ (CRC32_IEEE_POLYNOMIAL &&& (0 - (crc &&& 1)))

/-- An entry of the first of the `CRC32_TABLES`. -/
def crc32Entry (i : UInt32) : UInt32 := crc32Bit^[8] i

/-- `crc32_update`, a byte at a time. -/
def crc32Update (crc : UInt32) (data : Bytes) : UInt32 :=
  data.foldl (fun crc byte => (crc >>> 8) ^^^ crc32Entry ((crc ^^^ byte.toUInt32) &&& 0xff)) crc

/-- `crc32_extend`. -/
def crc32Extend (crc : UInt32) (data : Bytes) : UInt32 := ~~~crc32Update (~~~crc) data

/-- `page_crc` (`format.rs:691-693`): over a page less the field of the checksum itself. -/
def pageCrc (page : Bytes) : UInt32 :=
  crc32Extend (crc32Extend 0 (page.take 12)) (page.drop PAGE_HEADER)

/-- A page with its checksum in the field. -/
def stampCrc (page : Bytes) : Bytes :=
  page.take 12 ++ (beBytes 4 (pageCrc page).toNat ++ page.drop PAGE_HEADER)

def PAGE_CATALOG : UInt8 := 1
def PAGE_OVERFLOW : UInt8 := 4
def PAGE_FREELIST : UInt8 := 7

/-- `NO_TAG`. -/
def NO_TAG : Bytes := List.replicate TAG_LEN 0

/-- `PageRef` (`format.rs:238-241`): a page and the tag of the bytes it names. -/
structure PageRef where
  page : Nat
  tag : Bytes
  deriving DecidableEq, Repr

/-- `PageRef::NONE`. -/
def PageRef.NONE : PageRef := ⟨0, NO_TAG⟩

/-- A page of `len` bytes with no checksum yet. -/
def layPage (len : Nat) (pageType flags : UInt8) (itemCount nextPage : Nat) (payload : Bytes) :
    Bytes :=
  [pageType, flags, 0, 0] ++ (beBytes 4 itemCount ++ (beBytes 4 nextPage ++ (List.replicate 4 0 ++
    (payload ++ List.replicate (len - PAGE_HEADER - payload.length) 0))))

/-- `Page` (`format.rs:5681-5688`). -/
structure Page where
  pageType : UInt8
  flags : UInt8
  itemCount : Nat
  nextPage : Nat
  payload : Bytes
  deriving DecidableEq, Repr

/-- `parse_page` (`format.rs:5694-5712`). -/
def parsePage (block : Bytes) : Except Failure Page :=
  if block.length < PAGE_HEADER then .error (dataCorrupted "page shorter than its header")
  else if (pageCrc block).toNat ≠ beNat ((block.drop 12).take 4) then
    .error (dataCorrupted "page checksum mismatch (corrupted page)")
  else
    .ok ⟨block.headD 0, (block.drop 1).headD 0, beNat ((block.drop 4).take 4),
      beNat ((block.drop 8).take 4), block.drop PAGE_HEADER⟩

/-- `chain_content` (`format.rs:347-363`): the successor of a chain page and what follows its tag. -/
def chainContent (page : Page) (cap : Cap) : Except Failure (PageRef × Bytes) :=
  if page.payload.length < cap.tag then .error (dataCorrupted "chain page too short")
  else
    let tag := page.payload.take cap.tag ++ List.replicate (TAG_LEN - cap.tag) 0
    if page.nextPage = 0 ∧ tag ≠ NO_TAG then
      .error (dataCorrupted "the last chain page carries a successor tag")
    else .ok (⟨page.nextPage, tag⟩, page.payload.drop cap.tag)

def NONCE_LEN : Nat := 24
def ROLE_BODY : UInt8 := 0x01
def SUITE_XAES : UInt8 := 0x01

/-- `ad_prefix` (`crypto.rs:161-168`). -/
def adPrefix (role : UInt8) (position : Nat) : Bytes :=
  [0x4a, 0x45, 0x44, 0x42, SUITE_XAES, role] ++ beBytes 4 position

/-- The page key of an encrypted database, with the nonce drawn for a page. The cipher is an
    authenticated one: what it encrypts under a nonce and associated data it decrypts again. -/
structure PageCodec where
  nonce : Nat → Except Failure Bytes
  encrypt : (nonce buf ad : Bytes) → Bytes × Bytes
  decrypt : (nonce buf ad tag : Bytes) → Option Bytes
  nonce_length : ∀ {i n}, nonce i = .ok n → n.length = NONCE_LEN
  encrypt_length : ∀ n buf ad, (encrypt n buf ad).1.length = buf.length
  tag_length : ∀ n buf ad, (encrypt n buf ad).2.length = TAG_LEN
  decrypt_encrypt : ∀ n buf ad, decrypt n (encrypt n buf ad).1 ad (encrypt n buf ad).2 = some buf

/-- The smallest encrypted page. -/
def MIN_ENCRYPTED_PAGE_SIZE : Nat := 1024

/-- `seal_body` (`crypto.rs:255-263`): the stored page, and its tag. -/
def PageCodec.sealBody (codec : PageCodec) (index : Nat) (page : Bytes) :
    Except Failure (Bytes × Bytes) := do
  let nonce ← codec.nonce index
  let sealed := codec.encrypt nonce (page.take (page.length - RESERVE)) (adPrefix ROLE_BODY index)
  return (sealed.1 ++ (nonce ++ sealed.2), sealed.2)

/-- `open_body` (`crypto.rs:270-291`). -/
def PageCodec.openBody (codec : PageCodec) (index : Nat) (stored expected : Bytes) :
    Except Failure Bytes :=
  if stored.length < MIN_ENCRYPTED_PAGE_SIZE then .error (dataCorrupted "short encrypted page")
  else
    let split := stored.length - RESERVE
    let nonce := (stored.drop split).take NONCE_LEN
    let tag := stored.drop (split + NONCE_LEN)
    if tag ≠ expected then
      .error (dataCorrupted "page does not match the pointer that names it")
    else
      match codec.decrypt nonce (stored.take split) (adPrefix ROLE_BODY index) tag with
      | none => .error (dataCorrupted "page fails authentication")
      | some body =>
        if (body.drop 12).take 4 ≠ List.replicate 4 0 then
          .error (dataCorrupted "encrypted page carries a CRC")
        else .ok (stampCrc body)

/-- `Sealer` (`format.rs:284-308`), at a page size a database can have. -/
structure Sealer where
  ps : Nat
  codec : Option PageCodec
  valid : pageSizeValid ps
  room : codec.isSome → MIN_ENCRYPTED_PAGE_SIZE ≤ ps

def Sealer.cap (sealer : Sealer) : Cap := Cap.of sealer.ps sealer.codec.isSome

/-- `Sealer::page` (`format.rs:312-342`): the stored bytes of a body page, and its tag. -/
def Sealer.page (sealer : Sealer) (index : Nat) (pageType flags : UInt8) (itemCount : Nat)
    (next : PageRef) (payload : Bytes) : Except Failure (Bytes × Bytes) :=
  match sealer.codec with
  | none =>
    if sealer.ps < PAGE_HEADER + payload.length then .error .panic
    else .ok (stampCrc (layPage sealer.ps pageType flags itemCount next.page payload), NO_TAG)
  | some codec =>
    let chain := pageType = PAGE_CATALOG ∨ pageType = PAGE_OVERFLOW ∨ pageType = PAGE_FREELIST
    let lead := if chain then next.tag else []
    if sealer.cap.c < lead.length + payload.length then
      .error (dataCorrupted "page payload overflows its page")
    else codec.sealBody index (layPage sealer.ps pageType flags itemCount next.page (lead ++ payload))

/-- `read_body` (`paging.rs:94-101`), over what is stored. -/
def Sealer.readBody (sealer : Sealer) (blocks : Nat → Except Failure Bytes) (p : PageRef) :
    Except Failure Bytes := do
  let block ← blocks p.page
  match sealer.codec with
  | none => return block
  | some codec => codec.openBody p.page block p.tag

theorem layPage_length {len : ℕ} {t f : UInt8} {items next : ℕ} {payload : Bytes}
    (h : PAGE_HEADER + payload.length ≤ len) :
    (layPage len t f items next payload).length = len := by
  simp only [layPage, List.length_append, List.length_cons, List.length_nil, beBytes_length,
    List.length_replicate]
  unfold PAGE_HEADER at *
  omega

/-- The checksum's field is not part of what it covers. -/
theorem pageCrc_stampCrc {page : Bytes} (h : PAGE_HEADER ≤ page.length) :
    pageCrc (stampCrc page) = pageCrc page := by
  have hfront : (page.take 12).length = 12 := by
    rw [List.length_take]
    unfold PAGE_HEADER at h
    omega
  have htake : (stampCrc page).take 12 = page.take 12 := List.take_left' hfront
  have hdrop : (stampCrc page).drop PAGE_HEADER = page.drop PAGE_HEADER := by
    unfold stampCrc
    rw [← List.append_assoc]
    apply List.drop_left'
    rw [List.length_append, hfront, beBytes_length]
    rfl
  rw [pageCrc, pageCrc, htake, hdrop]

/-- What a stamped page is made of. -/
theorem stampCrc_layPage (len : ℕ) (t f : UInt8) (items next : ℕ) (payload : Bytes) :
    stampCrc (layPage len t f items next payload) =
      [t, f, 0, 0] ++ (beBytes 4 items ++ (beBytes 4 next ++
        (beBytes 4 (pageCrc (layPage len t f items next payload)).toNat ++
          (payload ++ List.replicate (len - PAGE_HEADER - payload.length) 0)))) := by
  have hsplit : ∀ a b c d : Bytes, a.length = 4 → b.length = 4 → c.length = 4 →
      (([t, f, 0, 0] ++ (a ++ (b ++ (c ++ d)))).take 12 = [t, f, 0, 0] ++ (a ++ b)) ∧
        ([t, f, 0, 0] ++ (a ++ (b ++ (c ++ d)))).drop PAGE_HEADER = d := by
    intro a b c d ha hb hc
    constructor
    · rw [← List.append_assoc a, ← List.append_assoc]
      apply List.take_left'
      simp only [List.length_append, ha, hb, List.length_cons, List.length_nil]
    · rw [← List.append_assoc b, ← List.append_assoc a, ← List.append_assoc]
      apply List.drop_left'
      simp only [List.length_append, ha, hb, hc, List.length_cons, List.length_nil]
      rfl
  obtain ⟨htake, hdrop⟩ := hsplit (beBytes 4 items) (beBytes 4 next) (List.replicate 4 0)
    (payload ++ List.replicate (len - PAGE_HEADER - payload.length) 0)
    (beBytes_length _ _) (beBytes_length _ _) List.length_replicate
  rw [stampCrc]
  conv_lhs =>
    enter [1]
    rw [layPage, htake]
  conv_lhs =>
    enter [2, 2]
    rw [layPage, hdrop]
  simp only [List.append_assoc]

/-- A page of one layout is parsed to what was laid out. -/
theorem parsePage_stampCrc {len : ℕ} {t f : UInt8} {items next : ℕ} {payload : Bytes}
    (hlen : PAGE_HEADER + payload.length ≤ len) (hitems : items < 2 ^ 32) (hnext : next < 2 ^ 32) :
    parsePage (stampCrc (layPage len t f items next payload)) =
      .ok ⟨t, f, items, next, payload ++ List.replicate (len - PAGE_HEADER - payload.length) 0⟩ := by
  have hcrc := @pageCrc_stampCrc (layPage len t f items next payload)
    (by rw [layPage_length hlen]; omega)
  rw [parsePage, hcrc, stampCrc_layPage]
  generalize hc : (pageCrc (layPage len t f items next payload)).toNat = crc
  have hbound : crc < 2 ^ 32 := by
    rw [← hc]
    exact (pageCrc _).toNat_lt
  have hnum : ∀ n < 2 ^ 32, beNat (beBytes 4 n) = n := by
    intro n hn
    rw [beNat_beBytes]
    exact Nat.mod_eq_of_lt hn
  have h4 : ∀ n, (beBytes 4 n).length = 4 := fun n => beBytes_length 4 n
  have hdrop8 : ∀ rest, (beBytes 4 items ++ (beBytes 4 next ++ rest)).drop 8 = rest := by
    intro rest
    rw [← List.append_assoc]
    apply List.drop_left'
    rw [List.length_append, h4, h4]
  have hdrop12 : ∀ rest,
      (beBytes 4 items ++ (beBytes 4 next ++ (beBytes 4 crc ++ rest))).drop 12 = rest := by
    intro rest
    rw [← List.drop_drop (i := 4) (j := 8), hdrop8]
    exact List.drop_left' (h4 crc)
  simp only [List.cons_append, List.nil_append]
  rw [if_neg, if_neg]
  · simp [h4, hnum items hitems, hnum next hnext, PAGE_HEADER, hdrop12]
  · simp [h4, hnum crc hbound, hdrop8]
  · simp [h4, PAGE_HEADER]
    omega

/-- A shorter page of the same layout, cut off in the padding. -/
theorem take_layPage {len m : ℕ} {t f : UInt8} {items next : ℕ} {payload : Bytes}
    (hm : PAGE_HEADER + payload.length ≤ m) (hlen : m ≤ len) :
    (layPage len t f items next payload).take m = layPage m t f items next payload := by
  have hfront : layPage len t f items next payload
      = layPage m t f items next payload ++ List.replicate (len - m) 0 := by
    unfold layPage
    simp only [List.append_assoc, List.replicate_append_replicate]
    rw [show len - PAGE_HEADER - payload.length = m - PAGE_HEADER - payload.length + (len - m) by
      omega]
  rw [hfront]
  exact List.take_left' (layPage_length hm)

/-- The field of the checksum is zero before it is stamped. -/
theorem layPage_crc (len : ℕ) (t f : UInt8) (items next : ℕ) (payload : Bytes) :
    ((layPage len t f items next payload).drop 12).take 4 = List.replicate 4 0 := by
  have h4 : ∀ n, (beBytes 4 n).length = 4 := fun n => beBytes_length 4 n
  have hdrop : (layPage len t f items next payload).drop 12 = List.replicate 4 0 ++
      (payload ++ List.replicate (len - PAGE_HEADER - payload.length) 0) := by
    unfold layPage
    rw [← List.append_assoc (beBytes 4 items), ← List.append_assoc [t, f, 0, 0]]
    apply List.drop_left'
    simp only [List.length_append, h4, List.length_cons, List.length_nil]
  rw [hdrop]
  exact List.take_left' List.length_replicate

/-- What is sealed is opened to the page with its checksum. -/
theorem PageCodec.openBody_sealBody {codec : PageCodec} {index : ℕ} {page stored tag : Bytes}
    (h : codec.sealBody index page = .ok (stored, tag)) (hlen : MIN_ENCRYPTED_PAGE_SIZE ≤ page.length)
    (hcrc : ((page.take (page.length - RESERVE)).drop 12).take 4 = List.replicate 4 0) :
    codec.openBody index stored tag = .ok (stampCrc (page.take (page.length - RESERVE))) ∧
      tag.length = TAG_LEN := by
  unfold PageCodec.sealBody at h
  cases hnonce : codec.nonce index with
  | error e =>
    rw [hnonce] at h
    cases h
  | ok nonce =>
    rw [hnonce] at h
    generalize hbuf : page.take (page.length - RESERVE) = buf at h hcrc ⊢
    cases h
    have hbuflen : buf.length = page.length - RESERVE := by
      rw [← hbuf, List.length_take]
      omega
    have hsealed := codec.encrypt_length nonce buf (adPrefix ROLE_BODY index)
    have htag := codec.tag_length nonce buf (adPrefix ROLE_BODY index)
    have hback := codec.decrypt_encrypt nonce buf (adPrefix ROLE_BODY index)
    have hn := codec.nonce_length hnonce
    generalize codec.encrypt nonce buf (adPrefix ROLE_BODY index) = sealed at hsealed htag hback
    have hstored : (sealed.1 ++ (nonce ++ sealed.2)).length = page.length := by
      rw [List.length_append, List.length_append, hsealed, hn, htag, hbuflen]
      unfold MIN_ENCRYPTED_PAGE_SIZE at hlen
      unfold RESERVE NONCE_LEN TAG_LEN
      omega
    have hfront : sealed.1.length = page.length - RESERVE := by rw [hsealed, hbuflen]
    have hdrop : (sealed.1 ++ (nonce ++ sealed.2)).drop (page.length - RESERVE) = nonce ++ sealed.2 :=
      List.drop_left' hfront
    have htail : (sealed.1 ++ (nonce ++ sealed.2)).drop (page.length - RESERVE + NONCE_LEN)
        = sealed.2 := by
      rw [← List.drop_drop, hdrop]
      exact List.drop_left' hn
    have htake : (sealed.1 ++ (nonce ++ sealed.2)).take (page.length - RESERVE) = sealed.1 :=
      List.take_left' hfront
    have hnonceTake : (nonce ++ sealed.2).take NONCE_LEN = nonce := List.take_left' hn
    refine ⟨?_, htag⟩
    unfold PageCodec.openBody
    rw [if_neg (by rw [hstored]; omega)]
    dsimp only
    rw [hstored, hdrop, htail, htake, hnonceTake, if_neg (fun hne => hne rfl), hback]
    dsimp only
    rw [if_neg (fun hne => hne hcrc)]

/-- A pointer as a sealer makes them: tagged in an encrypted file only, and to some page. -/
structure Sealer.Points (sealer : Sealer) (p : PageRef) : Prop where
  page : p.page < 2 ^ 32
  length : p.tag.length = TAG_LEN
  plain : sealer.codec = none → p.tag = NO_TAG
  none : p.page = 0 → p.tag = NO_TAG

theorem Sealer.points_none (sealer : Sealer) : sealer.Points PageRef.NONE where
  page := by decide
  length := by decide
  plain _ := rfl
  none _ := rfl

/-- The content of a chain page behind its successor's tag. -/
theorem chainContent_eq {page : Page} {cap : Cap} {next : PageRef} {lead content : Bytes}
    (hpayload : page.payload = lead ++ content) (hlead : lead.length = cap.tag)
    (htag : lead ++ List.replicate (TAG_LEN - cap.tag) 0 = next.tag)
    (hpage : page.nextPage = next.page) (hnone : next.page = 0 → next.tag = NO_TAG) :
    chainContent page cap = .ok (next, content) := by
  have hlong : ¬page.payload.length < cap.tag := by
    rw [hpayload, List.length_append, hlead]
    omega
  have htake : page.payload.take cap.tag = lead := by
    rw [hpayload]
    exact List.take_left' hlead
  have hdrop : page.payload.drop cap.tag = content := by
    rw [hpayload]
    exact List.drop_left' hlead
  have hlast : ¬(page.nextPage = 0 ∧ next.tag ≠ NO_TAG) := by
    rintro ⟨hzero, hne⟩
    exact hne (hnone (hpage ▸ hzero))
  unfold chainContent
  rw [if_neg hlong, htake, htag, if_neg hlast, hdrop, hpage]

/-- A sealed chain page is read back: what it holds, and the pointer to the next one. -/
theorem Sealer.readBody_page {sealer : Sealer} {index items : ℕ} {t f : UInt8} {next : PageRef}
    {payload bytes tag : Bytes} {blocks : ℕ → Except Failure Bytes}
    (h : sealer.page index t f items next payload = .ok (bytes, tag))
    (ht : t = PAGE_CATALOG ∨ t = PAGE_OVERFLOW ∨ t = PAGE_FREELIST) (hitems : items < 2 ^ 32)
    (hnext : sealer.Points next) (hblock : blocks index = .ok bytes) :
    tag.length = TAG_LEN ∧ (sealer.codec = none → tag = NO_TAG) ∧
    ∃ block page padding, sealer.readBody blocks ⟨index, tag⟩ = .ok block ∧
      parsePage block = .ok page ∧ page.pageType = t ∧ page.itemCount = items ∧
      chainContent page sealer.cap = .ok (next, payload ++ padding) := by
  unfold Sealer.page at h
  unfold Sealer.readBody Sealer.cap
  rw [hblock]
  cases hcodec : sealer.codec with
  | none =>
    rw [hcodec] at h
    dsimp only at h
    split at h
    · cases h
    · rename_i hfit
      cases h
      refine ⟨List.length_replicate, fun _ => rfl, _, _,
        List.replicate (sealer.ps - PAGE_HEADER - payload.length) 0, rfl,
        parsePage_stampCrc (not_lt.mp hfit) hitems hnext.page, rfl, rfl, ?_⟩
      exact chainContent_eq (List.nil_append _).symm rfl (hnext.plain hcodec).symm rfl hnext.none
  | some codec =>
    rw [hcodec] at h
    dsimp only at h
    rw [if_pos ht] at h
    split at h
    · cases h
    · rename_i hfit
      have hroom := sealer.room (by rw [hcodec]; rfl)
      have hcap : sealer.cap.c = sealer.ps - PAGE_HEADER - RESERVE := by
        unfold Sealer.cap
        rw [hcodec]
        rfl
      rw [hcap] at hfit
      have hshort : PAGE_HEADER + (next.tag ++ payload).length ≤ sealer.ps - RESERVE := by
        rw [List.length_append]
        unfold MIN_ENCRYPTED_PAGE_SIZE at hroom
        unfold PAGE_HEADER RESERVE at *
        omega
      have hlen := @layPage_length sealer.ps t f items next.page _ (hshort.trans (Nat.sub_le _ _))
      have hbody := @take_layPage sealer.ps _ t f items next.page _ hshort (Nat.sub_le _ _)
      obtain ⟨hopen, htag⟩ := PageCodec.openBody_sealBody h (by rw [hlen]; exact hroom)
        (by rw [hlen, hbody]; exact layPage_crc _ _ _ _ _ _)
      rw [hlen, hbody] at hopen
      refine ⟨htag, (fun hnone => by cases hnone), _, _,
        List.replicate (sealer.ps - RESERVE - PAGE_HEADER - (next.tag ++ payload).length) 0, hopen,
        parsePage_stampCrc hshort hitems hnext.page, rfl, rfl, ?_⟩
      refine chainContent_eq (List.append_assoc _ _ _) hnext.length ?_ rfl hnext.none
      exact List.append_nil _

end Jed.Codec
