import Jed.Codec.Page

/-!
# Page-service frames

The wire codec of the page service (`pageservice/codec.rs`): the messages, the writer that builds a
frame field by field, and the decoder that checks every field it reads.
-/

namespace Jed.Wire

open Readers Key

def PROTOCOL_VERSION : Nat := 1
def MAX_FRAME_LENGTH : Nat := 16777216

/-- A `String`: UTF-8 bytes. -/
abbrev Utf8 := { s : Bytes // ByteArray.validateUTF8 ⟨s.toArray⟩ = true }

/-- A byte array of fixed size. -/
abbrev Sized (n : Nat) := { b : Bytes // b.length = n }

/-- `Id16`: an owner incarnation id. -/
abbrev Id16 := Sized 16

/-- `Credential`. -/
inductive Credential where
  | passphrase (text : Utf8)
  | key (key : Sized 32)

/-- `IndexedPage`. -/
structure IndexedPage where
  index : UInt32
  page : Bytes

structure Hello where
  protocolMin : UInt16
  protocolMax : UInt16
  formatVersion : UInt16
  flags : UInt8
  clientName : Utf8
  credential : Option Credential

structure HelloOk where
  protocol : UInt16
  formatVersion : UInt16
  pageSize : UInt32
  connectionId : UInt64
  flags : UInt8
  maxReadPages : UInt32

structure BeginRead where
  incarnation : Id16
  lastTxid : UInt64

structure ReadBegun where
  incarnation : Id16
  txid : UInt64
  invalidate : UInt8
  indices : List UInt32
  metaPage : Bytes

structure ReadPages where
  txid : UInt64
  indices : List UInt32

structure BeginWrite where
  incarnation : Id16
  lastTxid : UInt64
  lockTimeoutMs : UInt64
  flags : UInt8

structure WriteBegun where
  incarnation : Id16
  txid : UInt64
  invalidate : UInt8
  indices : List UInt32
  reuseGrant : Bool
  metaPage : Bytes
  pending : List (UInt32 × UInt64)
  reuse : List UInt32

structure CommitBegin where
  txid : UInt64
  metaPage : Bytes
  manifestPages : List IndexedPage

structure CommitStatus where
  txid : UInt64
  digest : UInt64

structure Notice where
  kind : UInt8
  connectionId : UInt64

structure ErrorReply where
  sqlstate : Utf8
  message : Utf8
  detail : Utf8
  flags : UInt8

/-- `Message`; a body of one field is that field. -/
inductive Message where
  | hello (b : Hello)
  | helloOk (b : HelloOk)
  | beginRead (b : BeginRead)
  | readBegun (b : ReadBegun)
  | readPages (b : ReadPages)
  | pages (pages : List Bytes)
  | endRead (txid : UInt64)
  | beginWrite (b : BeginWrite)
  | writeBegun (b : WriteBegun)
  | commitBegin (b : CommitBegin)
  | commitPages (pages : List IndexedPage)
  | commitEnd
  | committed (txid : UInt64)
  | abort
  | commitStatus (b : CommitStatus)
  | commitStatusReply (status : UInt8)
  | requestOwnership
  | ownershipReply (status : UInt8)
  | notice (b : Notice)
  | error (b : ErrorReply)

/-- `Message::code`. -/
def Message.code : Message → UInt8
  | .hello _ => 0x01
  | .helloOk _ => 0x41
  | .beginRead _ => 0x02
  | .readBegun _ => 0x42
  | .readPages _ => 0x03
  | .pages _ => 0x43
  | .endRead _ => 0x04
  | .beginWrite _ => 0x05
  | .writeBegun _ => 0x45
  | .commitBegin _ => 0x06
  | .commitPages _ => 0x07
  | .commitEnd => 0x08
  | .committed _ => 0x48
  | .abort => 0x09
  | .commitStatus _ => 0x0a
  | .commitStatusReply _ => 0x4a
  | .requestOwnership => 0x0b
  | .ownershipReply _ => 0x4b
  | .notice _ => 0x7e
  | .error _ => 0x7f

/-- `Message::name`. -/
def Message.name : Message → String
  | .hello _ => "hello"
  | .helloOk _ => "hello_ok"
  | .beginRead _ => "begin_read"
  | .readBegun _ => "read_begun"
  | .readPages _ => "read_pages"
  | .pages _ => "pages"
  | .endRead _ => "end_read"
  | .beginWrite _ => "begin_write"
  | .writeBegun _ => "write_begun"
  | .commitBegin _ => "commit_begin"
  | .commitPages _ => "commit_pages"
  | .commitEnd => "commit_end"
  | .committed _ => "committed"
  | .abort => "abort"
  | .commitStatus _ => "commit_status"
  | .commitStatusReply _ => "commit_status_reply"
  | .requestOwnership => "request_ownership"
  | .ownershipReply _ => "ownership_reply"
  | .notice _ => "notice"
  | .error _ => "error"

/-- `violation`. -/
def violation (message : String) : Failure := .error ⟨.protocolViolation, message, none⟩

/-- `is_sqlstate`. -/
def isSqlstate (code : Bytes) : Bool :=
  code.length == 5 && code.all fun b => (0x30 ≤ b && b ≤ 0x39) || (0x41 ≤ b && b ≤ 0x5a)

/-- `{:02x}`. -/
def hex2 (b : UInt8) : String :=
  String.ofList [Nat.digitChar (b.toNat / 16), Nat.digitChar (b.toNat % 16)]

/-- `{:02x?}`. -/
def hexList (bytes : Bytes) : String := "[" ++ ", ".intercalate (bytes.map hex2) ++ "]"

/-- `{:?}`. -/
def quoted (s : Utf8) : String := ((String.fromUTF8? ⟨s.1.toArray⟩).getD "").quote

/-- `Writer`: the bytes of a field, the length of the message's pages being kept. -/
abbrev Writer := StateT (Option Nat) (Except Failure) Bytes

/-- One field after the other. -/
def writeAll : List Writer → Writer
  | [] => pure []
  | w :: ws => do
    let b ← w
    let bs ← writeAll ws
    pure (b ++ bs)

namespace Writer

def be (w n : Nat) : Writer := pure (beBytes w n)
def u8 (v : UInt8) : Writer := be 1 v.toNat
def u16 (v : UInt16) : Writer := be 2 v.toNat
def u32 (v : UInt32) : Writer := be 4 v.toNat
def u64 (v : UInt64) : Writer := be 8 v.toNat
def bool (v : Bool) : Writer := u8 (if v then 1 else 0)

/-- `id16`, and the bytes of a key. -/
def sized {n : Nat} (v : Sized n) : Writer := pure v.1

def sqlstate (v : Utf8) : Writer :=
  if isSqlstate v.1 then pure v.1
  else
    throw (violation (s!"page-service error sqlstate {quoted v} is not five ASCII digits " ++
      "or upper-case letters"))

def count (n : Nat) (what : String) : Writer :=
  if n < 2 ^ 32 then be 4 n
  else throw (violation s!"page-service {what} has {n} items, above u32")

def string (v : Utf8) : Writer := writeAll [count v.1.length "string", pure v.1]

def credential : Option Credential → Writer
  | none => u8 0
  | some (.passphrase text) => writeAll [u8 1, string text]
  | some (.key key) => writeAll [u8 2, sized key]

def page (page : Bytes) : Writer := do
  if page.isEmpty then throw (violation "page-service page is empty")
  else
    match ← get with
    | none =>
      set (some page.length)
      pure page
    | some len =>
      if len ≠ page.length then
        throw (violation s!"page-service pages of {len} and {page.length} bytes in one message")
      else pure page

/-- A list behind its count: `u32_list`, `digest_list`, `page_list`, `indexed_page_list`. -/
def list {α : Type} (what : String) (item : α → Writer) (v : List α) : Writer :=
  writeAll [count v.length what, writeAll (v.map item)]

def u32List : List UInt32 → Writer := list "u32_list" u32

def digestList : List (UInt32 × UInt64) → Writer :=
  list "digest_list" fun item => writeAll [u32 item.1, u64 item.2]

def pageList : List Bytes → Writer := list "page_list" page

def indexedPageList : List IndexedPage → Writer :=
  list "indexed_page_list" fun item => writeAll [u32 item.index, page item.page]

/-- The body of a message, as `encode_frame` writes it. -/
def body : Message → Writer
  | .hello b => writeAll [u16 b.protocolMin, u16 b.protocolMax, u16 b.formatVersion, u8 b.flags,
      string b.clientName, credential b.credential]
  | .helloOk b => writeAll [u16 b.protocol, u16 b.formatVersion, u32 b.pageSize,
      u64 b.connectionId, u8 b.flags, u32 b.maxReadPages]
  | .beginRead b => writeAll [sized b.incarnation, u64 b.lastTxid]
  | .readBegun b => writeAll [sized b.incarnation, u64 b.txid, u8 b.invalidate, u32List b.indices,
      page b.metaPage]
  | .readPages b => writeAll [u64 b.txid, u32List b.indices]
  | .pages pages => pageList pages
  | .endRead txid => u64 txid
  | .beginWrite b => writeAll [sized b.incarnation, u64 b.lastTxid, u64 b.lockTimeoutMs, u8 b.flags]
  | .writeBegun b => writeAll [sized b.incarnation, u64 b.txid, u8 b.invalidate, u32List b.indices,
      bool b.reuseGrant, page b.metaPage, digestList b.pending, u32List b.reuse]
  | .commitBegin b => writeAll [u64 b.txid, page b.metaPage, indexedPageList b.manifestPages]
  | .commitPages pages => indexedPageList pages
  | .commitEnd | .abort | .requestOwnership => writeAll []
  | .committed txid => u64 txid
  | .commitStatus b => writeAll [u64 b.txid, u64 b.digest]
  | .commitStatusReply status => u8 status
  | .ownershipReply status => u8 status
  | .notice b => writeAll [u8 b.kind, u64 b.connectionId]
  | .error b => writeAll [sqlstate b.sqlstate, string b.message, string b.detail, u8 b.flags]

end Writer

/-- `encode_frame`. -/
def encodeFrame (requestId : UInt32) (m : Message) : Except Failure Bytes := do
  let (body, _) ← (Writer.body m).run none
  let after := m.code :: (beBytes 4 requestId.toNat ++ body)
  if MAX_FRAME_LENGTH < after.length then
    throw (violation
      s!"page-service {m.name} frame length {after.length} exceeds {MAX_FRAME_LENGTH}")
  else return beBytes 4 after.length ++ after

/-- What the `Reader` of a frame goes by: the length of the frame, the connection's page size, and
    whether the allocator serves a reservation of so many items with so many bytes left. -/
structure Decoder where
  len : Nat
  pageSize : Nat
  serves : (items remaining : Nat) → Bool

/-- A reader of fields. -/
abbrev Field (α : Type) := Reader Failure UInt8 α

namespace Decoder

variable (d : Decoder)

def take (n : Nat) : Field Bytes := fun buf =>
  if buf.length < n then
    .error (violation
      s!"page-service frame truncated: need {n} bytes at offset {d.len - buf.length}")
  else .ok (buf.take n, buf.drop n)

def be (w : Nat) : Field Nat := do
  let s ← d.take w
  pure (Codec.beNat s)

def u8 : Field UInt8 := do
  let n ← d.be 1
  pure (UInt8.ofNat n)

def u16 : Field UInt16 := do
  let n ← d.be 2
  pure (UInt16.ofNat n)

def u32 : Field UInt32 := do
  let n ← d.be 4
  pure (UInt32.ofNat n)

def u64 : Field UInt64 := do
  let n ← d.be 8
  pure (UInt64.ofNat n)

def bool : Field Bool := do
  let b ← d.u8
  if b = 0 then pure false
  else if b = 1 then pure true
  else throw (violation s!"page-service bool byte {b} is not 0 or 1")

/-- An array of fixed size: `id16`, and the bytes of a key. -/
def sized (n : Nat) : Field (Sized n) := do
  let b ← d.take n
  if h : b.length = n then pure ⟨b, h⟩ else throw .panic

def utf8 (bytes : Bytes) : Field Utf8 :=
  if h : ByteArray.validateUTF8 ⟨bytes.toArray⟩ = true then pure ⟨bytes, h⟩
  else throw (violation "page-service string is not valid UTF-8")

def sqlstate : Field Utf8 := do
  let code ← d.take 5
  if isSqlstate code then utf8 code
  else
    throw (violation (s!"page-service error sqlstate {hexList code} is not five ASCII digits " ++
      "or upper-case letters"))

/-- `count`: checked against the bytes that are left. -/
def count (itemLen : Nat) (what : String) : Field Nat := do
  let count ← d.be 4
  let remaining ← get
  if remaining.length < count * itemLen then
    throw (violation (s!"page-service {what} count {count} of {itemLen}-byte items exceeds the " ++
      s!"{remaining.length} remaining bytes"))
  else pure count

/-- `Vec::with_capacity`, of so many items. -/
def reserve (count : Nat) : Field Unit := do
  let remaining ← get
  if d.serves count remaining.length then pure () else throw .panic

def string : Field Utf8 := do
  let length ← d.count 1 "string"
  let bytes ← d.take length
  utf8 bytes

def credential : Field (Option Credential) := do
  let kind ← d.u8
  if kind = 0 then pure none
  else if kind = 1 then
    let text ← d.string
    pure (some (.passphrase text))
  else if kind = 2 then
    let key ← d.sized 32
    pure (some (.key key))
  else throw (violation s!"page-service credential kind {kind} names no credential")

def page : Field Bytes :=
  if d.pageSize = 0 then
    throw (violation "page-service page field with no connection page size")
  else d.take d.pageSize

/-- A list behind its count. -/
def list {α : Type} (itemLen : Nat) (what : String) (item : Field α) : Field (List α) := do
  let count ← d.count itemLen what
  d.reserve count
  readEach (fun _ => item) (List.range count)

def u32List : Field (List UInt32) := d.list 4 "u32_list" d.u32

def digestList : Field (List (UInt32 × UInt64)) := d.list 12 "digest_list" do
  let index ← d.u32
  let digest ← d.u64
  pure (index, digest)

def pageList : Field (List Bytes) := d.list d.pageSize "page_list" d.page

def indexedPageList : Field (List IndexedPage) :=
  d.list (4 + d.pageSize) "indexed_page_list" do
    let index ← d.u32
    let page ← d.page
    pure ⟨index, page⟩

def hello : Field Hello := do
  let protocolMin ← d.u16
  let protocolMax ← d.u16
  let formatVersion ← d.u16
  let flags ← d.u8
  let clientName ← d.string
  let credential ← d.credential
  pure ⟨protocolMin, protocolMax, formatVersion, flags, clientName, credential⟩

def helloOk : Field HelloOk := do
  let protocol ← d.u16
  let formatVersion ← d.u16
  let pageSize ← d.u32
  let connectionId ← d.u64
  let flags ← d.u8
  let maxReadPages ← d.u32
  pure ⟨protocol, formatVersion, pageSize, connectionId, flags, maxReadPages⟩

def beginRead : Field BeginRead := do
  let incarnation ← d.sized 16
  let lastTxid ← d.u64
  pure ⟨incarnation, lastTxid⟩

def readBegun : Field ReadBegun := do
  let incarnation ← d.sized 16
  let txid ← d.u64
  let invalidate ← d.u8
  let indices ← d.u32List
  let metaPage ← d.page
  pure ⟨incarnation, txid, invalidate, indices, metaPage⟩

def readPages : Field ReadPages := do
  let txid ← d.u64
  let indices ← d.u32List
  pure ⟨txid, indices⟩

def beginWrite : Field BeginWrite := do
  let incarnation ← d.sized 16
  let lastTxid ← d.u64
  let lockTimeoutMs ← d.u64
  let flags ← d.u8
  pure ⟨incarnation, lastTxid, lockTimeoutMs, flags⟩

def writeBegun : Field WriteBegun := do
  let incarnation ← d.sized 16
  let txid ← d.u64
  let invalidate ← d.u8
  let indices ← d.u32List
  let reuseGrant ← d.bool
  let metaPage ← d.page
  let pending ← d.digestList
  let reuse ← d.u32List
  pure ⟨incarnation, txid, invalidate, indices, reuseGrant, metaPage, pending, reuse⟩

def commitBegin : Field CommitBegin := do
  let txid ← d.u64
  let metaPage ← d.page
  let manifestPages ← d.indexedPageList
  pure ⟨txid, metaPage, manifestPages⟩

def commitStatus : Field CommitStatus := do
  let txid ← d.u64
  let digest ← d.u64
  pure ⟨txid, digest⟩

def notice : Field Notice := do
  let kind ← d.u8
  let connectionId ← d.u64
  pure ⟨kind, connectionId⟩

def errorReply : Field ErrorReply := do
  let sqlstate ← d.sqlstate
  let message ← d.string
  let detail ← d.string
  let flags ← d.u8
  pure ⟨sqlstate, message, detail, flags⟩

/-- `decode_body`. -/
def body (code : UInt8) : Field Message :=
  match code.toNat with
  | 0x01 => d.hello >>= fun b => pure (.hello b)
  | 0x41 => d.helloOk >>= fun b => pure (.helloOk b)
  | 0x02 => d.beginRead >>= fun b => pure (.beginRead b)
  | 0x42 => d.readBegun >>= fun b => pure (.readBegun b)
  | 0x03 => d.readPages >>= fun b => pure (.readPages b)
  | 0x43 => d.pageList >>= fun pages => pure (.pages pages)
  | 0x04 => d.u64 >>= fun txid => pure (.endRead txid)
  | 0x05 => d.beginWrite >>= fun b => pure (.beginWrite b)
  | 0x45 => d.writeBegun >>= fun b => pure (.writeBegun b)
  | 0x06 => d.commitBegin >>= fun b => pure (.commitBegin b)
  | 0x07 => d.indexedPageList >>= fun pages => pure (.commitPages pages)
  | 0x08 => pure .commitEnd
  | 0x48 => d.u64 >>= fun txid => pure (.committed txid)
  | 0x09 => pure .abort
  | 0x0a => d.commitStatus >>= fun b => pure (.commitStatus b)
  | 0x4a => d.u8 >>= fun status => pure (.commitStatusReply status)
  | 0x0b => pure .requestOwnership
  | 0x4b => d.u8 >>= fun status => pure (.ownershipReply status)
  | 0x7e => d.notice >>= fun b => pure (.notice b)
  | 0x7f => d.errorReply >>= fun b => pure (.error b)
  | 0x0c | 0x0d =>
    throw (violation
      s!"page-service message code 0x{hex2 code} is reserved in protocol {PROTOCOL_VERSION}")
  | _ => throw (violation s!"page-service message code 0x{hex2 code} names no message")

end Decoder

/-- `check_length`. -/
def checkLength (length : Nat) : Except Failure Unit :=
  if 5 ≤ length ∧ length ≤ MAX_FRAME_LENGTH then .ok ()
  else
    .error (violation s!"page-service frame length {length} is outside 5..={MAX_FRAME_LENGTH}")

/-- `decode_frame`, with an allocator. -/
def decodeFrame (serves : (items remaining : Nat) → Bool) (pageSize : Nat) (frame : Bytes) :
    Except Failure (UInt32 × Message) := do
  if frame.length < 4 then
    throw (violation "page-service frame truncated: shorter than its length field")
  else
    let length := Codec.beNat (frame.take 4)
    checkLength length
    let after := frame.drop 4
    if length < after.length then
      throw (violation
        s!"page-service frame has {after.length - length} bytes beyond its length {length}")
    else if after.length < length then
      throw (violation
        s!"page-service frame truncated: length {length}, {after.length} bytes present")
    else
      let d : Decoder := ⟨after.length, pageSize, serves⟩
      let (code, r) ← d.u8 after
      let (requestId, r) ← d.u32 r
      let (message, r) ← d.body code r
      if r.length ≠ 0 then
        throw (violation
          s!"page-service {message.name} frame has {r.length} bytes after its last field")
      else return (requestId, message)

end Jed.Wire
