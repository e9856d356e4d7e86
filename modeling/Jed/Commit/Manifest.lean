import Jed.Codec.Page

/-!
# Commit manifests

The meta page's view of a commit (`format.rs:5518-5533`, `5584-5653`) and the validation of its manifest
against the pages of the store (`commit_manifest.rs`): the listed pages, inline in the meta and on a
chain of manifest pages, each with the CRC-64 of its bytes.
-/

namespace Jed.Commit

open Key PMap Codec

def CRC64_POLYNOMIAL : UInt64 := 0x42f0e1eba9ea3693

/-- One bit of a table entry. -/
def crc64Bit (crc : UInt64) : UInt64 :=
  if crc &&& ((1 : UInt64) <<< 63) ≠ 0 then (crc <<< 1) ^^^ CRC64_POLYNOMIAL else crc <<< 1

/-- An entry of the `CRC64` table. -/
def crc64Entry (i : UInt64) : UInt64 := crc64Bit^[8] (i <<< 56)

/-- `extend`. -/
def extend (crc : UInt64) (bytes : Bytes) : UInt64 :=
  bytes.foldl (fun crc byte => (crc <<< 8) ^^^ crc64Entry ((crc >>> 56) ^^^ byte.toUInt64)) crc

/-- `u32_at`. -/
def u32At (b : Bytes) (at' : Nat) : Nat := beNat ((b.drop at').take 4)

/-- `u64_at`. -/
def u64At (b : Bytes) (at' : Nat) : Nat := beNat ((b.drop at').take 8)

/-- The bytes from `lo` to `hi` are zero. -/
def zeroes (b : Bytes) (lo hi : Nat) : Bool := ((b.take hi).drop lo).all (· == 0)

def MAGIC : Bytes := [0x4a, 0x45, 0x44, 0x42]
def FORMAT_VERSION : Nat := 50
def ROOT_PAGE : Nat := 2
def FIRST_BODY_PAGE : Nat := 4
def PAGE_MANIFEST : UInt8 := 8
def HEADER : Nat := 64
def ENCRYPTED_HEADER : Nat := 96
def ENTRY : Nat := 12
def OVERFLOW_HEADER : Nat := 32

/-- `meta_crc`. -/
def metaCrc (page : Bytes) : UInt32 := crc32Extend (crc32Extend 0 (page.take 32)) (page.drop 36)

/-- `Cap::first_body`, of a plaintext or an encrypted database. -/
def firstBody (encrypted : Bool) : Nat := if encrypted then FIRST_BODY_PAGE else ROOT_PAGE

/-- Whether the meta is an encrypted database's: `meta[6] != 0`. -/
def suited (m : Bytes) : Bool := (m.drop 6).headD 0 != 0

/-- `MetaFields`. -/
structure MetaFields where
  txid : Nat
  rootPage : Nat
  pageCount : Nat
  freeListHead : Nat
  manifestHead : Nat
  dirtyCount : Nat
  manifestPages : Nat
  manifestCrc : Nat

/-- The suite byte and the reserve of a meta are a known variant's. -/
def variantKnown (m : Bytes) : Bool :=
  let suite := (m.drop 6).headD 0
  let reserve := (m.drop 7).headD 0
  (suite == 0 && reserve == 0) ||
    (suite == SUITE_XAES && reserve.toNat == RESERVE && decide (MIN_ENCRYPTED_PAGE_SIZE ≤ m.length))

/-- `parse_meta` accepts. -/
def metaParses (m : Bytes) : Bool :=
  let first := firstBody (suited m)
  let pageCount := u32At m 24
  let freeListHead := u32At m 28
  let rootPage := u32At m 20
  decide (64 ≤ m.length) && u32At m 8 == m.length && m.take 4 == MAGIC &&
    beNat ((m.drop 4).take 2) == FORMAT_VERSION && variantKnown m &&
    (metaCrc m).toNat == u32At m 32 &&
    (freeListHead == 0 || (decide (first ≤ freeListHead) && decide (freeListHead < pageCount))) &&
    decide (first ≤ rootPage) && decide (rootPage < pageCount) &&
    decide (u32At m 56 ≤ pageCount - first) &&
    (!suited m || freeListHead != 0 || zeroes m 80 96)

/-- `meta_fields`. -/
def metaFields (m : Bytes) : Option MetaFields :=
  if metaParses m then
    some {
      txid := u64At m 12
      rootPage := u32At m 20
      pageCount := u32At m 24
      freeListHead := u32At m 28
      manifestHead := u32At m 36
      dirtyCount := u32At m 40
      manifestPages := u32At m 44
      manifestCrc := u64At m 48 }
  else none

/-- `inline_area`. -/
def inlineArea (ps : Nat) (encrypted : Bool) : Nat × Nat :=
  if encrypted then (ENCRYPTED_HEADER, ps - RESERVE) else (HEADER, ps)

/-- `capacities`. -/
def capacities (ps : Nat) (encrypted : Bool) : Nat × Nat :=
  let (lo, hi) := inlineArea ps encrypted
  ((hi - lo) / ENTRY, (ps - OVERFLOW_HEADER) / ENTRY)

/-- `overflow_needed`. -/
def overflowNeeded (ps : Nat) (encrypted : Bool) (entries : Nat) : Nat :=
  let (inline, per) := capacities ps encrypted
  (entries - inline + per - 1) / per

/-- The first `count` entries from `at'` on: the page ids, each with its digest. -/
def entriesAt (b : Bytes) (at' count : Nat) : List (Nat × Nat) :=
  (List.range count).map fun k => (u32At b (at' + k * ENTRY), u64At b (at' + k * ENTRY + 4))

/-- The entries of a meta page's inline area. -/
def inlineEntries (m : Bytes) (encrypted : Bool) : List (Nat × Nat) :=
  entriesAt m (inlineArea m.length encrypted).1 (min (u32At m 40) (capacities m.length encrypted).1)

def invalidManifest : Failure := dataCorrupted "invalid commit manifest"

/-- `typed`. -/
def typed (encrypted : Bool) (page : Bytes) : Except Failure Bool :=
  if encrypted then .ok true
  else do
    let p ← parsePage page
    return decide (1 ≤ p.pageType ∧ p.pageType ≤ 7)

/-- The pages a validation reads from. -/
abbrev Pages := Nat → Except Failure Bytes

/-- Where a validation stands among the listed pages: the last id, and the ids protected so far. -/
structure Checked where
  last : Nat
  ids : Finset Nat

/-- The loop over the entries of the meta or of a manifest page; on the latter no id may be there
    already (`commit_manifest.rs:190-204`, `239-250`). -/
def checkEntries (encrypted : Bool) (pageCount : Nat) (read : Pages) (onChain : Bool) :
    List (Nat × Nat) → Checked → Except Failure Checked
  | [], c => .ok c
  | (id, digest) :: entries, c => do
    if id < firstBody encrypted ∨ id ≤ c.last ∨ pageCount ≤ id ∨ (onChain ∧ id ∈ c.ids) then
      throw invalidManifest
    else
      let page ← read id
      if (extend 0 page).toNat ≠ digest then throw invalidManifest
      else
        let isTyped ← typed encrypted page
        if !isTyped then throw invalidManifest
        else checkEntries encrypted pageCount read onChain entries ⟨id, insert id c.ids⟩

/-- A manifest page is page `ordinal` of the chain of commit `txid`, with `number` entries. -/
def manifestPage (txid : Nat) (page : Bytes) (p : Page) (number ordinal : Nat) : Bool :=
  p.pageType == PAGE_MANIFEST && p.itemCount == number && zeroes page 1 4 &&
    u64At page 16 == txid && u32At page 24 == ordinal && u32At page 28 == 0 &&
    zeroes page (OVERFLOW_HEADER + number * ENTRY) page.length

/-- The loop over the manifest chain (`commit_manifest.rs:211-254`): the pages left, the ordinal, the
    next page, the entries left and the digest so far. -/
def checkChain (encrypted : Bool) (metaPage : Bytes) (read : Pages) :
    Nat → Nat → Nat → Nat → UInt64 → Checked → Except Failure (Nat × Nat × UInt64 × Checked)
  | 0, _, next, remaining, digest, c => .ok (next, remaining, digest, c)
  | n + 1, ordinal, next, remaining, digest, c => do
    if next < firstBody encrypted ∨ u32At metaPage 24 ≤ next ∨ next = u32At metaPage 20 ∨
        next = u32At metaPage 28 ∨ next ∈ c.ids then throw invalidManifest
    else
      let page ← read next
      let p ← parsePage page
      let number := min remaining ((metaPage.length - OVERFLOW_HEADER) / ENTRY)
      if !manifestPage (u64At metaPage 12) page p number ordinal then throw invalidManifest
      else
        let c ← checkEntries encrypted (u32At metaPage 24) read true
          (entriesAt page OVERFLOW_HEADER number) ⟨c.last, insert next c.ids⟩
        checkChain encrypted metaPage read n (ordinal + 1) p.nextPage (remaining - number)
          (extend (extend digest (beBytes 4 next)) page) c

/-- `validate_inner`. -/
def validateInner (m : Bytes) (physical : Nat) (read : Pages) : Except Failure (Finset Nat) := do
  let encrypted := suited m
  let first := firstBody encrypted
  let pageCount := u32At m 24
  let count := u32At m 40
  let n := u32At m 44
  let next := u32At m 36
  if physical < pageCount ∨ pageCount ≤ first ∨ pageCount - first < count + n ∨ !zeroes m 60 64 ∨
      ¬(n = 0 ↔ next = 0) ∨ (count = 0 ∧ (n ≠ 0 ∨ u64At m 48 ≠ 0)) ∨
      n < overflowNeeded m.length encrypted count then throw invalidManifest
  else
    let area := inlineArea m.length encrypted
    let inline := min count (capacities m.length encrypted).1
    if !zeroes m (area.1 + inline * ENTRY) area.2 then throw invalidManifest
    else
      let c ← checkEntries encrypted pageCount read false (inlineEntries m encrypted) ⟨1, ∅⟩
      let (next, remaining, digest, c) ←
        checkChain encrypted m read n 0 next (count - inline) 0 c
      if next ≠ 0 ∨ remaining ≠ 0 ∨ digest.toNat ≠ u64At m 48 ∨ (count ≠ 0 ∧ (u32At m 20 ∉ c.ids ∨
          (u32At m 28 ≠ 0 ∧ u32At m 28 ∉ c.ids))) then throw invalidManifest
      else return c.ids

/-- `validate`: only corruption permits a fallback. -/
def validate (m : Bytes) (physical : Nat) (read : Pages) : Except Failure (Option (Finset Nat)) :=
  match validateInner m physical read with
  | .ok ids => .ok (some ids)
  | .error (.error e) => if e.state = .dataCorrupted then .ok none else .error (.error e)
  | .error .panic => .error .panic

end Jed.Commit
