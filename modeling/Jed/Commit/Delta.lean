import Jed.Commit.Manifest
import Jed.Wire.Frame

/-!
# Client deltas

The owner's validation of an incoming commit delta (`pageservice/delta.rs`) and the frames that carry
one (`pageservice/owner.rs:1466-1548`): `commit_begin` with the meta and the manifest chain,
`commit_pages` with the listed body pages, `commit_end`. Every check of a frame runs before the pages of
the frame are written.
-/

namespace Jed.Commit

open Key PMap Codec Wire

/-- The owner state a delta is checked against, fixed at `begin_write`. -/
structure DeltaBase where
  committedTxid : Nat
  pageSize : Nat
  pageCount : Nat
  granted : Option (Finset Nat)
  pending : List (Nat × Nat)
  encrypted : Bool

namespace DeltaBase

/-- A page the grant names. -/
def grants (base : DeltaBase) (index : Nat) : Bool := base.granted.any (index ∈ ·)

/-- `DeltaBase::legal`. -/
def legal (base : DeltaBase) (index newPageCount : Nat) : Bool :=
  decide (firstBody base.encrypted ≤ index) && decide (index < newPageCount) &&
    (decide (base.pageCount ≤ index) || base.grants index)

end DeltaBase

/-- `Delta`: a delta after its `commit_begin` passed. -/
structure Delta where
  txid : Nat
  metaPage : Bytes
  encrypted : Bool
  pageCount : Nat
  freeListHead : Nat
  expected : List (Nat × Nat)
  received : Finset Nat
  manifest : List IndexedPage
  protectedPages : Finset Nat
  written : List Nat

/-- `invalid`. -/
def invalid (reason : String) : Failure := violation ("invalid commit delta: " ++ reason)

/-- `Listing`. -/
structure Listing where
  last : Nat
  rootSeen : Bool
  freeHeadSeen : Bool
  listed : Nat
  carried : Nat

/-- What a listed index changes in either case. -/
def Listing.see (l : Listing) (index rootPage freeListHead carried : Nat) : Listing :=
  ⟨index, l.rootSeen || index == rootPage, l.freeHeadSeen || index == freeListHead, l.listed + 1,
    l.carried + carried⟩

/-- `Listing::list`. -/
def Listing.list (base : DeltaBase) (rootPage : Nat) :
    List (Nat × Nat) → Listing → Delta → Except Failure (Listing × Delta)
  | [], l, delta => .ok (l, delta)
  | (index, digest) :: entries, l, delta =>
    if index ≤ l.last then .error (invalid "manifest indices are not strictly ascending")
    else
      match base.pending.lookup index with
      | some known =>
        if digest ≠ known then
          .error (invalid s!"pending page {index} is listed with another digest")
        else
          list base rootPage entries (l.see index rootPage delta.freeListHead 1)
            { delta with protectedPages := insert index delta.protectedPages }
      | none =>
        if !base.legal index delta.pageCount then
          .error (invalid s!"page {index} is neither beyond the high-water nor a granted free page")
        else
          list base rootPage entries (l.see index rootPage delta.freeListHead 0)
            { delta with
              expected := delta.expected ++ [(index, digest)]
              protectedPages := insert index delta.protectedPages }

/-- The header of a manifest page of commit `txid`, as `begin_delta` checks it. -/
def chainHeader (txid : Nat) (block : Bytes) (header : Page) (count ordinal : Nat) : Bool :=
  header.pageType == PAGE_MANIFEST && zeroes block 1 4 && header.itemCount == count &&
    u64At block 16 == txid && u32At block 24 == ordinal && zeroes block 28 32 &&
    zeroes block (32 + 12 * count) block.length

/-- The loop of `begin_delta` over the manifest pages (`delta.rs:208-240`): the ordinal, the id the
    page must have, the digest so far. -/
def beginChain (base : DeltaBase) (m : MetaFields) :
    List IndexedPage → Nat → Nat → UInt64 → Listing → Delta →
      Except Failure (Nat × UInt64 × Listing × Delta)
  | [], _, id, chainCrc, listing, delta => .ok (id, chainCrc, listing, delta)
  | page :: pages, ordinal, id, chainCrc, listing, delta =>
    if page.index.toNat ≠ id ∨ !base.legal id m.pageCount ∨ id ∈ delta.protectedPages then
      .error (invalid "the manifest chain names an illegal page")
    else
      let block := page.page
      let count := min (m.dirtyCount - listing.listed) (capacities base.pageSize base.encrypted).2
      if block.length ≠ base.pageSize then .error (invalid "a manifest page is malformed")
      else
        match parsePage block with
        | .error _ => .error (invalid "a manifest page is malformed")
        | .ok header =>
          if !chainHeader m.txid block header count ordinal then
            .error (invalid "a manifest page is malformed")
          else do
            let chainCrc := extend (extend chainCrc (beBytes 4 id)) block
            let (listing, delta) ← listing.list base m.rootPage (entriesAt block 32 count)
              { delta with protectedPages := insert id delta.protectedPages }
            beginChain base m pages (ordinal + 1) header.nextPage chainCrc listing
              { delta with manifest := delta.manifest ++ [page] }

/-- Where the inline entries of a meta stand. -/
def inlineAt (encrypted : Bool) : Nat := if encrypted then 96 else 64

/-- `begin_delta`. -/
def beginDelta (base : DeltaBase) (cb : CommitBegin) : Except Failure Delta :=
  if cb.txid.toNat ≠ base.committedTxid + 1 then
    .error (invalid
      s!"txid {cb.txid.toNat} does not follow the committed txid {base.committedTxid}")
  else if cb.metaPage.length ≠ base.pageSize then .error (invalid "the meta page has the wrong size")
  else
    match metaFields cb.metaPage with
    | none => .error (invalid "the meta page does not parse")
    | some m =>
      if m.txid ≠ cb.txid.toNat then .error (invalid "the meta page names another txid")
      else if m.pageCount < base.pageCount then .error (invalid "the page count shrinks")
      else if m.dirtyCount = 0 then .error (invalid "the manifest lists no page")
      else if cb.manifestPages.length ≠ m.manifestPages then
        .error (invalid "commit_begin carries the wrong number of manifest pages")
      else do
        let delta : Delta :=
          ⟨cb.txid.toNat, cb.metaPage, base.encrypted, m.pageCount, m.freeListHead, [], ∅, [], ∅, []⟩
        let listing : Listing := ⟨1, false, m.freeListHead == 0, 0, 0⟩
        let count := min m.dirtyCount (capacities base.pageSize base.encrypted).1
        let (listing, delta) ← listing.list base m.rootPage
          (entriesAt cb.metaPage (inlineAt base.encrypted) count) delta
        let (id, chainCrc, listing, delta) ←
          beginChain base m cb.manifestPages 0 m.manifestHead 0 listing delta
        if id ≠ 0 ∨ chainCrc.toNat ≠ m.manifestCrc then
          throw (invalid "the manifest chain does not match the meta")
        else if listing.listed ≠ m.dirtyCount ∨ !listing.rootSeen ∨ !listing.freeHeadSeen then
          throw (invalid "the manifest does not cover the catalog root and free-list head")
        else if listing.carried ≠ base.pending.length then
          throw (invalid "the manifest does not list the owner's pending pages")
        else
          return { delta with written :=
            (delta.protectedPages.filter fun index => (base.pending.lookup index).isNone).sort (· ≤ ·) }

namespace Delta

/-- A body page has the type and the checksum of one, or is ciphertext. -/
def plainOk (delta : Delta) (b : Bytes) : Bool :=
  delta.encrypted || (decide (1 ≤ b.headD 0) && decide (b.headD 0 ≤ 7) &&
    (pageCrc b).toNat == u32At b 12)

/-- `check_page`. -/
def checkPage (delta : Delta) (page : IndexedPage) : Except Failure Delta :=
  let index := page.index.toNat
  match delta.expected.lookup index with
  | none => .error (invalid s!"page {index} is not listed in the manifest")
  | some crc =>
    if index ∈ delta.received then .error (invalid s!"page {index} arrived twice")
    else if page.page.length ≠ delta.metaPage.length ∨ !delta.plainOk page.page ∨
        (extend 0 page.page).toNat ≠ crc then
      .error (invalid s!"page {index} does not match its manifest identity")
    else .ok { delta with received := insert index delta.received }

/-- The loop of `commit_pages` over the checks. -/
def checkPages : Delta → List IndexedPage → Except Failure Delta
  | delta, [] => .ok delta
  | delta, page :: pages => do checkPages (← delta.checkPage page) pages

/-- `complete`. -/
def complete (delta : Delta) : Except Failure Unit :=
  if delta.received.card ≠ delta.expected.length then
    .error (invalid "commit_end before every listed page arrived")
  else .ok ()

end Delta

/-- The owner's pager: the pages of the store and how many it has. -/
structure PageStore where
  pages : Nat → Bytes
  physical : Nat

namespace PageStore

def reserve (s : PageStore) (pageCount : Nat) : PageStore :=
  { s with physical := max s.physical pageCount }

def writeBlock (s : PageStore) (page : IndexedPage) : PageStore :=
  { s with pages := Function.update s.pages page.index.toNat page.page }

def read (s : PageStore) : Pages := fun id => .ok (s.pages id)

end PageStore

/-- The write transaction of a connection: `started` once its pager commit began. -/
structure WriteTxn where
  started : Bool
  delta : Option Delta
  failure : Option Failure

/-- An owner during a client's write transaction: its store, the pages written, and the delta
    `commit_end` passed to `finish_client_commit`. -/
structure Owner where
  store : PageStore
  log : List IndexedPage
  write : Option WriteTxn
  finishing : Option Delta

/-- A frame of a delta. -/
inductive DeltaFrame where
  | commitBegin (cb : CommitBegin)
  | commitPages (pages : List IndexedPage)
  | commitEnd

namespace Owner

/-- An owner that just granted a `begin_write`. -/
def granted (store : PageStore) : Owner := ⟨store, [], some ⟨false, none, none⟩, none⟩

/-- `page_service_write_delta`, with the transaction after it. -/
def writeDelta (o : Owner) (started : Bool) (pageCount : Nat) (pages : List IndexedPage)
    (w : WriteTxn) : Owner :=
  let store := if started then o.store else o.store.reserve pageCount
  { o with
    store := pages.foldl PageStore.writeBlock store
    log := o.log ++ pages
    write := some { w with started := true } }

variable (base : DeltaBase) (checkMeta : Delta → Except Failure Unit)

/-- `commit_begin`, after the check of an encrypted meta's tag (`page_service_check_meta`). -/
def commitBegin (o : Owner) (cb : CommitBegin) : Except Failure Owner :=
  match o.write with
  | none => .error (violation "commit_begin without a write transaction")
  | some w =>
    if w.delta.isSome ∨ w.failure.isSome then
      .error (violation "commit_begin twice in one write transaction")
    else
      match (do let delta ← beginDelta base cb; checkMeta delta; return delta) with
      | .error e => .ok { o with write := some { w with failure := some e } }
      | .ok delta =>
        .ok (o.writeDelta w.started delta.pageCount delta.manifest { w with delta := some delta })

/-- `commit_pages`. -/
def commitPages (o : Owner) (pages : List IndexedPage) : Except Failure Owner :=
  match o.write with
  | none => .error (violation "commit_pages without a write transaction")
  | some w =>
    if w.failure.isSome then .ok o
    else
      match w.delta with
      | none => .error (violation "commit_pages before commit_begin")
      | some delta =>
        match delta.checkPages pages with
        | .error e => .ok { o with write := some { w with failure := some e } }
        | .ok delta =>
          .ok (o.writeDelta w.started delta.pageCount pages { w with delta := some delta })

/-- `commit_end`, to the point of no return. -/
def commitEnd (o : Owner) : Except Failure Owner :=
  match o.write with
  | none => .error (violation "commit_end without a write transaction")
  | some w =>
    match w.failure, w.delta with
    | some failure, _ => .error failure
    | none, none => .error (violation "commit_end before commit_begin")
    | none, some delta => do
      delta.complete
      return { o with write := none, finishing := some delta }

/-- One frame. -/
def step (o : Owner) : DeltaFrame → Except Failure Owner
  | .commitBegin cb => o.commitBegin base checkMeta cb
  | .commitPages pages => o.commitPages pages
  | .commitEnd => o.commitEnd

/-- The frames of a connection, in order. -/
def run : List DeltaFrame → Owner → Except Failure Owner
  | [], o => .ok o
  | frame :: frames, o => do run frames (← o.step base checkMeta frame)

end Owner

end Jed.Commit
