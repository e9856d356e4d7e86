import Jed.Commit.Delta
import Jed.Lib.Results
import Mathlib.Data.List.Chain
import Mathlib.Data.Finset.Card

/-!
# Accepted deltas

What the checks of `commit_begin` establish of a delta's manifest, and what the frames of a delta have
written when `commit_end` accepts it.
-/

namespace Jed.Commit

open Key PMap Codec Wire Results

/-- The ids of some entries, in order. -/
abbrev idsOf (entries : List (Nat × Nat)) : List Nat := entries.map Prod.fst

/-- Ids above `last` and ascending. -/
abbrev Ascending (last : Nat) (ids : List Nat) : Prop := (last :: ids).IsChain (· < ·)

variable {last : ℕ}

theorem ascending_append {a b : List ℕ} :
    Ascending last (a ++ b) ↔ Ascending last a ∧ Ascending (a.getLastD last) b := by
  induction a generalizing last with
  | nil => simp [Ascending]
  | cons id a ih =>
    simp only [Ascending, List.cons_append, List.isChain_cons_cons, List.getLastD_cons] at ih ⊢
    rw [ih, and_assoc]

variable {ids : List ℕ}

theorem Ascending.pairwise (h : Ascending last ids) :
    (last :: ids).Pairwise (· < ·) := List.isChain_iff_pairwise.mp h

theorem Ascending.lt {id : ℕ} (h : Ascending last ids) (hid : id ∈ ids) :
    last < id := (List.pairwise_cons.mp h.pairwise).1 id hid

theorem Ascending.sorted (h : Ascending last ids) :
    ids.Pairwise (· < ·) := (List.pairwise_cons.mp h.pairwise).2

theorem Ascending.nodup (h : Ascending last ids) : ids.Nodup :=
  h.sorted.imp fun hlt => hlt.ne

theorem length_entriesAt (b : Bytes) (at' count : ℕ) : (entriesAt b at' count).length = count := by
  unfold entriesAt
  rw [List.length_map, List.length_range]

/-- What the owner asks of an entry: one of its pending pages, with the digest it has, or a page a delta
    may write. -/
def DeltaBase.Lists (base : DeltaBase) (pageCount : Nat) (e : Nat × Nat) : Prop :=
  base.pending.lookup e.1 = some e.2 ∨
    base.pending.lookup e.1 = none ∧ base.legal e.1 pageCount = true

/-- The entries whose pages are sent. -/
def DeltaBase.sent (base : DeltaBase) (entries : List (Nat × Nat)) : List (Nat × Nat) :=
  entries.filter fun e => (base.pending.lookup e.1).isNone

/-- The listing after some entries, of a delta with this page count and free-list head. -/
structure Listing.After (base : DeltaBase) (rootPage pageCount freeListHead : Nat)
    (entries : List (Nat × Nat)) (l l' : Listing) : Prop where
  ascending : Ascending l.last (idsOf entries)
  lists : ∀ e ∈ entries, base.Lists pageCount e
  last : l'.last = (idsOf entries).getLastD l.last
  rootSeen : l'.rootSeen = true → l.rootSeen = true ∨ rootPage ∈ idsOf entries
  freeHeadSeen : l'.freeHeadSeen = true → l.freeHeadSeen = true ∨ freeListHead ∈ idsOf entries
  listed : l'.listed = l.listed + entries.length

section

variable {base : DeltaBase} {rootPage pageCount freeListHead : ℕ}

variable {l : Listing}

theorem Listing.after_nil :
    Listing.After base rootPage pageCount freeListHead [] l l where
  ascending := List.isChain_singleton _
  lists := by intro e he; cases he
  last := rfl
  rootSeen := Or.inl
  freeHeadSeen := Or.inl
  listed := rfl

theorem Listing.After.append {a b : List (ℕ × ℕ)} {l₁ l₂ : Listing}
    (ha : Listing.After base rootPage pageCount freeListHead a l l₁)
    (hb : Listing.After base rootPage pageCount freeListHead b l₁ l₂) :
    Listing.After base rootPage pageCount freeListHead (a ++ b) l l₂ := by
  constructor
  · rw [idsOf, List.map_append, ascending_append, ← ha.last]
    exact ⟨ha.ascending, hb.ascending⟩
  · intro e he
    cases List.mem_append.mp he with
    | inl he => exact ha.lists e he
    | inr he => exact hb.lists e he
  · rw [hb.last, ha.last, idsOf, idsOf, idsOf, List.map_append]
    cases h : b.map Prod.fst using List.reverseRecOn <;> simp
  · intro h
    rw [idsOf, List.map_append, List.mem_append]
    cases hb.rootSeen h with
    | inl h => exact (ha.rootSeen h).imp id Or.inl
    | inr h => exact .inr (.inr h)
  · intro h
    rw [idsOf, List.map_append, List.mem_append]
    cases hb.freeHeadSeen h with
    | inl h => exact (ha.freeHeadSeen h).imp id Or.inl
    | inr h => exact .inr (.inr h)
  · rw [hb.listed, ha.listed, List.length_append, Nat.add_assoc]

theorem Listing.after_see {index digest carried : ℕ} (hlast : l.last < index)
    (hlists : base.Lists pageCount (index, digest)) :
    Listing.After base rootPage pageCount freeListHead [(index, digest)] l
      (l.see index rootPage freeListHead carried) := by
  constructor
  · simpa [Ascending] using hlast
  · simpa using hlists
  · rfl
  · intro h
    exact ((Bool.or_eq_true _ _).mp h).imp id fun h =>
      List.mem_singleton.mpr (beq_iff_eq.mp h).symm
  · intro h
    exact ((Bool.or_eq_true _ _).mp h).imp id fun h =>
      List.mem_singleton.mpr (beq_iff_eq.mp h).symm
  · rfl

end

/-- A delta after some entries. -/
def Delta.list (base : DeltaBase) (delta : Delta) (entries : List (Nat × Nat)) : Delta :=
  { delta with
    expected := delta.expected ++ base.sent entries
    protectedPages := delta.protectedPages ∪ (idsOf entries).toFinset }

variable {delta delta' : Delta} {l l' : Listing}

theorem Listing.list_after {base : DeltaBase} {rootPage : ℕ} {entries : List (ℕ × ℕ)}
    (h : Listing.list base rootPage entries l delta = .ok (l', delta')) :
    Listing.After base rootPage delta.pageCount delta.freeListHead entries l l' ∧
      delta' = delta.list base entries := by
  induction entries generalizing l delta with
  | nil =>
    cases h
    exact ⟨after_nil, by simp [Delta.list, DeltaBase.sent]⟩
  | cons e entries ih =>
    obtain ⟨index, digest⟩ := e
    have hunion : insert index delta.protectedPages ∪ (idsOf entries).toFinset =
        delta.protectedPages ∪ (idsOf ((index, digest) :: entries)).toFinset := by
      rw [idsOf, idsOf, List.map_cons, List.toFinset_cons, Finset.union_insert, Finset.insert_union]
    rw [Listing.list] at h
    split at h
    · cases h
    · rename_i hlast
      split at h
      · rename_i known hknown
        split at h
        · cases h
        · rename_i hdigest
          obtain ⟨hafter, hdelta⟩ := ih h
          have hsent : base.sent ((index, digest) :: entries) = base.sent entries := by
            simp [DeltaBase.sent, hknown]
          constructor
          · apply (after_see (not_le.mp hlast) _).append hafter
            exact .inl (by rw [hknown, not_not.mp hdigest])
          · rw [hdelta, Delta.list, Delta.list, hsent, ← hunion]
      · rename_i hknown
        split at h
        · cases h
        · rename_i hlegal
          obtain ⟨hafter, hdelta⟩ := ih h
          have hsent : base.sent ((index, digest) :: entries) =
              [(index, digest)] ++ base.sent entries := by
            simp [DeltaBase.sent, hknown]
          constructor
          · apply (after_see (not_le.mp hlast) _).append hafter
            exact .inr ⟨hknown, by simpa using hlegal⟩
          · rw [hdelta, Delta.list, Delta.list, hsent, ← hunion, List.append_assoc]

/-- The entries of a manifest page. -/
def perPage (ps : Nat) : Nat := (ps - OVERFLOW_HEADER) / ENTRY

/-- The entries a chain lists, `remaining` in all. -/
def overflowEntries (ps : Nat) : List IndexedPage → Nat → List (Nat × Nat)
  | [], _ => []
  | page :: pages, remaining =>
    entriesAt page.page OVERFLOW_HEADER (min remaining (perPage ps)) ++
      overflowEntries ps pages (remaining - min remaining (perPage ps))

def indices (pages : List IndexedPage) : List Nat := pages.map fun page => page.index.toNat

/-- The digest of a chain. -/
def chainDigest (pages : List IndexedPage) (crc : UInt64) : UInt64 :=
  pages.foldl (fun crc page => extend (extend crc (beBytes 4 page.index.toNat)) page.page) crc

/-- Pages that are the chain of commit `txid` from page `id`, number `ordinal`, on, with `remaining`
    entries. -/
def Chained (txid ps : Nat) : List IndexedPage → Nat → Nat → Nat → Prop
  | [], _, id, remaining => id = 0 ∧ remaining = 0
  | page :: pages, ordinal, id, remaining =>
    page.index.toNat = id ∧ page.page.length = ps ∧ ∃ header, parsePage page.page = .ok header ∧
      manifestPage txid page.page header (min remaining (perPage ps)) ordinal = true ∧
      Chained txid ps pages (ordinal + 1) header.nextPage (remaining - min remaining (perPage ps))

theorem beNat_zeroes {bs : Bytes} (h : bs.all (· == 0) = true) : beNat bs = 0 := by
  induction bs using List.reverseRecOn with
  | nil => rfl
  | append_singleton bs b ih =>
    simp only [List.all_append, List.all_cons, List.all_nil, Bool.and_true, Bool.and_eq_true,
      beq_iff_eq] at h
    rw [beNat, List.foldl_append, ← beNat, ih h.1, h.2]
    rfl

theorem manifestPage_of_chainHeader {txid count ordinal : ℕ} {block : Bytes} {header : Page}
    (h : chainHeader txid block header count ordinal = true) :
    manifestPage txid block header count ordinal = true := by
  simp only [chainHeader, Bool.and_eq_true, beq_iff_eq] at h
  obtain ⟨⟨⟨⟨⟨⟨htype, hfront⟩, hitems⟩, htxid⟩, hordinal⟩, hback⟩, htail⟩ := h
  have hlast : u32At block 28 = 0 := by
    rw [zeroes, List.drop_take] at hback
    exact beNat_zeroes hback
  simp only [manifestPage, Bool.and_eq_true, beq_iff_eq]
  refine ⟨⟨⟨⟨⟨⟨htype, hitems⟩, hfront⟩, htxid⟩, hordinal⟩, hlast⟩, ?_⟩
  rw [Nat.mul_comm count]
  exact htail

/-- A delta after the pages of a chain. -/
def Delta.chain (base : DeltaBase) (delta : Delta) (pages : List IndexedPage)
    (entries : List (Nat × Nat)) : Delta :=
  { delta with
    expected := delta.expected ++ base.sent entries
    protectedPages := delta.protectedPages ∪ ((indices pages).toFinset ∪ (idsOf entries).toFinset)
    manifest := delta.manifest ++ pages }

variable {pages : List IndexedPage}

theorem beginChain_spec {base : DeltaBase} {m : MetaFields} {ordinal id : ℕ} {crc crc' : UInt64}
    (h : beginChain base m pages ordinal id crc l delta = .ok (0, crc', l', delta'))
    (hle : l.listed ≤ m.dirtyCount) (hall : l'.listed = m.dirtyCount)
    (hcount : delta.pageCount = m.pageCount) (hhead : delta.freeListHead = m.freeListHead) :
    Chained m.txid base.pageSize pages ordinal id (m.dirtyCount - l.listed) ∧
      crc' = chainDigest pages crc ∧ (indices pages).Nodup ∧
      (∀ index ∈ indices pages, index ∉ delta.protectedPages ∧
        base.legal index m.pageCount = true) ∧
      Listing.After base m.rootPage m.pageCount m.freeListHead
        (overflowEntries base.pageSize pages (m.dirtyCount - l.listed)) l l' ∧
      delta' = delta.chain base pages
        (overflowEntries base.pageSize pages (m.dirtyCount - l.listed)) := by
  induction pages generalizing ordinal id crc l delta with
  | nil =>
    cases h
    refine ⟨⟨rfl, by omega⟩, rfl, List.nodup_nil, by simp [indices], Listing.after_nil, ?_⟩
    simp [Delta.chain, DeltaBase.sent, indices, overflowEntries]
  | cons page pages ih =>
    rw [beginChain] at h
    split at h
    · cases h
    · rename_i hid
      simp only [not_or, not_not, Bool.not_eq_true', Bool.not_eq_false] at hid
      obtain ⟨hid, hlegal, hnew⟩ := hid
      dsimp only at h
      split at h
      · cases h
      · rename_i hlen
        split at h
        · cases h
        · rename_i header hheader
          split at h
          · cases h
          · rename_i hpage
            cases hlist : Listing.list base m.rootPage (entriesAt page.page 32
                (min (m.dirtyCount - l.listed) (capacities base.pageSize base.encrypted).2)) l
                { delta with protectedPages := insert id delta.protectedPages } with
            | error e =>
              rw [hlist] at h
              cases h
            | ok out =>
              obtain ⟨l₁, delta₁⟩ := out
              rw [hlist] at h
              obtain ⟨hafter, hdelta⟩ := Listing.list_after hlist
              have hlisted : l₁.listed = l.listed +
                  min (m.dirtyCount - l.listed) (perPage base.pageSize) := by
                rw [hafter.listed, length_entriesAt]
                rfl
              have hrest : m.dirtyCount - l₁.listed = m.dirtyCount - l.listed -
                  min (m.dirtyCount - l.listed) (perPage base.pageSize) := by omega
              have hle₁ : l₁.listed ≤ m.dirtyCount := by omega
              subst hdelta
              obtain ⟨hchained, hcrc, hnodup, hfresh, hafter', hdelta'⟩ :=
                ih h hle₁ hcount hhead
              rw [hrest] at hchained hafter' hdelta'
              have hnew' : id ∉ indices pages := by
                intro hmem
                apply (hfresh id hmem).1
                exact Finset.mem_union_left _ (Finset.mem_insert_self _ _)
              refine ⟨⟨hid, not_not.mp hlen, header, hheader, ?_, hchained⟩, ?_, ?_, ?_, ?_, ?_⟩
              · apply manifestPage_of_chainHeader
                rw [Bool.not_eq_true, Bool.not_eq_false'] at hpage
                exact hpage
              · rw [hcrc, chainDigest, chainDigest, List.foldl_cons, hid]
              · rw [indices, List.map_cons, List.nodup_cons, hid]
                exact ⟨hnew', hnodup⟩
              · intro index hindex
                cases List.mem_cons.mp hindex with
                | inl heq =>
                  rw [show index = id from heq.trans hid]
                  exact ⟨hnew, hlegal⟩
                | inr hmem =>
                  refine ⟨fun hold => (hfresh index hmem).1 ?_, (hfresh index hmem).2⟩
                  exact Finset.mem_union_left _ (Finset.mem_insert_of_mem hold)
              · rw [overflowEntries]
                apply Listing.After.append _ hafter'
                rw [← hcount, ← hhead]
                exact hafter
              · have hunion : ∀ A B C : Finset ℕ, insert id delta.protectedPages ∪ A ∪ (B ∪ C) =
                    delta.protectedPages ∪ (insert id B ∪ (A ∪ C)) := by
                  intro A B C
                  ext x
                  simp only [Finset.mem_union, Finset.mem_insert]
                  tauto
                rw [hdelta']
                simp only [Delta.chain, Delta.list, DeltaBase.sent, overflowEntries, indices, List.map_cons,
                  hid, List.filter_append, List.append_assoc, List.cons_append, List.nil_append, idsOf,
                  List.map_append, List.toFinset_append, List.toFinset_cons]
                rw [hunion]
                rfl

/-- The entries a delta lists, in the meta and on the chain. -/
def Delta.listed (delta : Delta) : List (Nat × Nat) :=
  let inline := inlineEntries delta.metaPage delta.encrypted
  inline ++ overflowEntries delta.metaPage.length delta.manifest
    (u32At delta.metaPage 40 - inline.length)

/-- What the checks of `commit_begin` establish. -/
structure Delta.Begun (base : DeltaBase) (delta : Delta) : Prop where
  encrypted : delta.encrypted = base.encrypted
  parses : metaParses delta.metaPage = true
  pageCount : delta.pageCount = u32At delta.metaPage 24
  covers : base.pageCount ≤ delta.pageCount
  some_listed : u32At delta.metaPage 40 ≠ 0
  manifest_length : delta.manifest.length = u32At delta.metaPage 44
  chained : Chained (u64At delta.metaPage 12) delta.metaPage.length delta.manifest 0
    (u32At delta.metaPage 36)
    (u32At delta.metaPage 40 - (inlineEntries delta.metaPage delta.encrypted).length)
  digest : (chainDigest delta.manifest 0).toNat = u64At delta.metaPage 48
  chain_nodup : (indices delta.manifest).Nodup
  chain_legal : ∀ index ∈ indices delta.manifest, base.legal index delta.pageCount = true
  ascending : Ascending 1 (idsOf delta.listed)
  lists : ∀ e ∈ delta.listed, base.Lists delta.pageCount e
  root : u32At delta.metaPage 20 ∈ idsOf delta.listed
  freeHead : u32At delta.metaPage 28 = 0 ∨ u32At delta.metaPage 28 ∈ idsOf delta.listed
  length : delta.listed.length = u32At delta.metaPage 40
  expected : delta.expected = base.sent delta.listed

theorem Delta.listed_of {m : Bytes} {encrypted : Bool} {ps : ℕ}
    (hmeta : delta.metaPage = m) (hencrypted : delta.encrypted = encrypted) (hmanifest : delta.manifest = pages)
    (hps : m.length = ps) : delta.listed = inlineEntries m encrypted ++
      overflowEntries ps pages (u32At m 40 - (inlineEntries m encrypted).length) := by
  subst hmeta hencrypted hmanifest hps
  rfl

theorem inlineAt_eq (ps : ℕ) (encrypted : Bool) : inlineAt encrypted = (inlineArea ps encrypted).1 := by
  cases encrypted <;> rfl

theorem beginDelta_begun {base : DeltaBase} {cb : CommitBegin}
    (h : beginDelta base cb = .ok delta) : delta.Begun base ∧ delta.received = ∅ := by
  rw [beginDelta] at h
  split at h
  · cases h
  split at h
  · cases h
  rename_i hps
  split at h
  · cases h
  rename_i m hm
  rw [metaFields] at hm
  split at hm
  case isFalse => cases hm
  rename_i hparses
  cases hm
  dsimp only at h
  split at h
  · cases h
  split at h
  · cases h
  rename_i hcovers
  split at h
  · cases h
  rename_i hsome
  split at h
  · cases h
  rename_i hlength
  rw [not_not] at hps hlength
  obtain ⟨⟨l₁, delta₁⟩, hlist, h⟩ := bind_eq_ok.1 h
  obtain ⟨⟨id, crc, l₂, delta₂⟩, hchain, h⟩ := bind_eq_ok.1 h
  dsimp only at h
  split at h
  · cases h
  rename_i hend
  split at h
  · cases h
  rename_i hcover
  split at h
  · cases h
  rename_i hcarried
  cases h
  simp only [not_or, not_not, Bool.not_eq_true', Bool.not_eq_false] at hend hcover
  obtain ⟨rfl, hcrc⟩ := hend
  obtain ⟨hlisted, hroot, hfree⟩ := hcover
  obtain ⟨hafter, hdelta⟩ := Listing.list_after hlist
  subst hdelta
  have hinline : entriesAt cb.metaPage (inlineAt base.encrypted)
      (min (u32At cb.metaPage 40) (capacities base.pageSize base.encrypted).1) =
      inlineEntries cb.metaPage base.encrypted := by
    rw [inlineEntries, hps, inlineAt_eq base.pageSize]
  rw [hinline] at hafter hchain
  have hl₁ : l₁.listed = (inlineEntries cb.metaPage base.encrypted).length := by
    rw [hafter.listed]
    exact Nat.zero_add _
  have hle : l₁.listed ≤ u32At cb.metaPage 40 := by
    rw [hl₁, inlineEntries, length_entriesAt]
    exact Nat.min_le_left _ _
  obtain ⟨hchained, hdigest, hnodup, hlegal, hafter', hdelta'⟩ := beginChain_spec hchain hle hlisted rfl rfl
  rw [hl₁] at hchained hafter' hdelta'
  have hall := hafter.append hafter'
  subst hdelta'
  refine ⟨⟨rfl, hparses, rfl, not_lt.mp hcovers, hsome, hlength, ?_, ?_, hnodup, ?_, ?_, ?_, ?_, ?_, ?_, ?_⟩, rfl⟩
  · simp only [Delta.chain, Delta.list, List.nil_append]
    rw [hps]
    exact hchained
  · simp only [Delta.chain, Delta.list, List.nil_append]
    rw [← hdigest]
    exact hcrc
  · exact fun index hindex => (hlegal index hindex).2
  · rw [Delta.listed_of (show _ = cb.metaPage from rfl) (show _ = base.encrypted from rfl)
      (show _ = cb.manifestPages from rfl) hps]
    exact hall.ascending
  · rw [Delta.listed_of (show _ = cb.metaPage from rfl) (show _ = base.encrypted from rfl)
      (show _ = cb.manifestPages from rfl) hps]
    exact hall.lists
  · rw [Delta.listed_of (show _ = cb.metaPage from rfl) (show _ = base.encrypted from rfl)
      (show _ = cb.manifestPages from rfl) hps]
    exact (hall.rootSeen hroot).resolve_left (fun h => by cases h)
  · rw [Delta.listed_of (show _ = cb.metaPage from rfl) (show _ = base.encrypted from rfl)
      (show _ = cb.manifestPages from rfl) hps]
    exact (hall.freeHeadSeen hfree).imp beq_iff_eq.mp id
  · rw [Delta.listed_of (show _ = cb.metaPage from rfl) (show _ = base.encrypted from rfl)
      (show _ = cb.manifestPages from rfl) hps]
    have hcount := hall.listed
    rw [hlisted] at hcount
    exact (hcount.trans (Nat.zero_add _)).symm
  · rw [Delta.listed_of (show _ = cb.metaPage from rfl) (show _ = base.encrypted from rfl)
      (show _ = cb.manifestPages from rfl) hps]
    simp only [Delta.chain, Delta.list, List.nil_append, DeltaBase.sent, List.filter_append]

/-- A body page as `check_page` accepts it. -/
structure Delta.Fits (delta : Delta) (page : IndexedPage) : Prop where
  listed : delta.expected.lookup page.index.toNat = some (extend 0 page.page).toNat
  length : page.page.length = delta.metaPage.length
  plain : delta.plainOk page.page = true

/-- A delta that has received some pages. -/
def Delta.got (delta : Delta) (body : List IndexedPage) : Delta :=
  { delta with received := (indices body).toFinset }

theorem indices_append (a b : List IndexedPage) : indices (a ++ b) = indices a ++ indices b := List.map_append

theorem checkPage_spec {body : List IndexedPage} {page : IndexedPage}
    (h : delta.checkPage page = .ok delta') (hreceived : delta.received = (indices body).toFinset) :
    delta' = delta.got (body ++ [page]) ∧ page.index.toNat ∉ indices body ∧ delta.Fits page := by
  rw [Delta.checkPage] at h
  split at h
  · cases h
  rename_i crc hcrc
  split at h
  · cases h
  rename_i hnew
  split at h
  · cases h
  rename_i hmatch
  cases h
  simp only [not_or, not_not, Bool.not_eq_true, Bool.not_eq_false'] at hmatch
  obtain ⟨hlength, hplain, hdigest⟩ := hmatch
  rw [hreceived, List.mem_toFinset] at hnew
  refine ⟨?_, hnew, ⟨by rw [hcrc, hdigest], hlength, hplain⟩⟩
  rw [Delta.got, indices_append, List.toFinset_append, hreceived, Finset.union_comm]
  rfl

theorem checkPages_spec : ∀ {delta delta' : Delta} {body : List IndexedPage},
    delta.checkPages pages = .ok delta' → delta.received = (indices body).toFinset → (indices body).Nodup →
    delta' = delta.got (body ++ pages) ∧ (indices (body ++ pages)).Nodup ∧ ∀ page ∈ pages, delta.Fits page := by
  induction pages with
  | nil =>
    intro delta delta' body h hreceived hnodup
    cases h
    rw [List.append_nil]
    exact ⟨by rw [Delta.got, ← hreceived], hnodup, fun _ h => (by cases h)⟩
  | cons page pages ih =>
    intro delta delta' body h hreceived hnodup
    rw [Delta.checkPages] at h
    obtain ⟨delta₁, hpage, h⟩ := bind_eq_ok.1 h
    obtain ⟨rfl, hnew, hfits⟩ := checkPage_spec hpage hreceived
    have hnodup₁ : (indices (body ++ [page])).Nodup := by
      rw [indices_append, List.nodup_append]
      refine ⟨hnodup, List.nodup_singleton _, fun id hid x hx heq => hnew ?_⟩
      have hx : x = page.index.toNat := List.mem_singleton.1 hx
      rw [← hx, ← heq]
      exact hid
    obtain ⟨hdelta, hall, hrest⟩ := ih h rfl hnodup₁
    rw [List.append_assoc] at hdelta hall
    refine ⟨hdelta, hall, fun x hx => ?_⟩
    cases hx with
    | head => exact hfits
    | tail _ hx => exact ⟨(hrest x hx).listed, (hrest x hx).length, (hrest x hx).plain⟩

theorem Delta.Begun.got {base : DeltaBase} (h : delta.Begun base) (body : List IndexedPage) :
    (delta.got body).Begun base :=
  ⟨h.encrypted, h.parses, h.pageCount, h.covers, h.some_listed, h.manifest_length, h.chained, h.digest,
    h.chain_nodup, h.chain_legal, h.ascending, h.lists, h.root, h.freeHead, h.length, h.expected⟩

/-- What the owner has taken of a delta: its chain and some body pages, all of them written. -/
structure Owner.Taken (base : DeltaBase) (store : PageStore) (o : Owner) (delta : Delta)
    (body : List IndexedPage) : Prop where
  begun : delta.Begun base
  received : delta.received = (indices body).toFinset
  nodup : (indices body).Nodup
  fits : ∀ page ∈ body, delta.Fits page
  log : o.log = delta.manifest ++ body
  store : o.store = (delta.manifest ++ body).foldl PageStore.writeBlock (store.reserve delta.pageCount)

/-- Where a write transaction stands that was granted over `store`. -/
inductive Owner.Stage (base : DeltaBase) (store : PageStore) (o : Owner) : Prop where
  | waiting : o.log = [] → o.store = store → o.write = some ⟨false, none, none⟩ → o.finishing = none →
    Stage base store o
  | failed {w : WriteTxn} {e : Failure} : o.write = some w → w.failure = some e → o.finishing = none →
    Stage base store o
  | taking {delta : Delta} {body : List IndexedPage} : o.Taken base store delta body →
    o.write = some ⟨true, some delta, none⟩ → o.finishing = none → Stage base store o
  | finished {delta : Delta} {body : List IndexedPage} : o.Taken base store delta body → o.write = none →
    o.finishing = some delta → delta.received.card = delta.expected.length → Stage base store o

variable {checkMeta : Delta → Except Failure Unit} {store : PageStore} {o : Owner}

theorem Owner.Stage.step {base : DeltaBase}
    {o' : Owner} {frame : DeltaFrame} (h : o.Stage base store) (hstep : o.step base checkMeta frame = .ok o') :
    o'.Stage base store := by
  cases h with
  | waiting hlog hstore hwrite hfin =>
    cases frame with
    | commitBegin cb =>
      simp only [Owner.step, Owner.commitBegin, hwrite] at hstep
      split at hstep
      · cases hstep
      split at hstep
      · cases hstep
        exact .failed rfl rfl hfin
      · rename_i delta hdelta
        cases hstep
        obtain ⟨delta', hbegin, hdelta⟩ := bind_eq_ok.1 hdelta
        obtain ⟨_, -, hdelta⟩ := bind_eq_ok.1 hdelta
        cases hdelta
        obtain ⟨hbegun, hreceived⟩ := beginDelta_begun hbegin
        have htaken : Owner.Taken base store
            (o.writeDelta false delta.pageCount delta.manifest ⟨false, some delta, none⟩) delta [] := by
          refine ⟨hbegun, hreceived, List.nodup_nil, fun _ h => (by cases h), ?_, ?_⟩
          · simp only [Owner.writeDelta, hlog, List.nil_append, List.append_nil]
          · simp only [Owner.writeDelta, hstore, List.append_nil, Bool.false_eq_true, if_false]
        exact .taking htaken rfl hfin
    | commitPages pages =>
      simp only [Owner.step, Owner.commitPages, hwrite] at hstep
      cases hstep
    | commitEnd =>
      simp only [Owner.step, Owner.commitEnd, hwrite] at hstep
      cases hstep
  | failed hwrite hfailure hfin =>
    rename_i w e
    cases frame with
    | commitBegin cb =>
      simp only [Owner.step, Owner.commitBegin, hwrite, hfailure, Option.isSome_some, or_true, if_true] at hstep
      cases hstep
    | commitPages pages =>
      simp only [Owner.step, Owner.commitPages, hwrite, hfailure, Option.isSome_some, if_true] at hstep
      cases hstep
      exact .failed hwrite hfailure hfin
    | commitEnd =>
      simp only [Owner.step, Owner.commitEnd, hwrite, hfailure] at hstep
      cases hstep
  | taking htaken hwrite hfin =>
    rename_i delta body
    cases frame with
    | commitBegin cb =>
      simp only [Owner.step, Owner.commitBegin, hwrite, Option.isSome_some, true_or, if_true] at hstep
      cases hstep
    | commitPages pages =>
      simp only [Owner.step, Owner.commitPages, hwrite] at hstep
      split at hstep
      · rename_i hfail
        cases hfail
      split at hstep
      · cases hstep
        exact .failed rfl rfl hfin
      · rename_i delta' hpages
        cases hstep
        obtain ⟨rfl, hnodup, hfits⟩ := checkPages_spec hpages htaken.received htaken.nodup
        have htaken' : Owner.Taken base store (o.writeDelta true delta.pageCount pages
            ⟨true, some (delta.got (body ++ pages)), none⟩) (delta.got (body ++ pages)) (body ++ pages) := by
          refine ⟨htaken.begun.got _, rfl, hnodup, fun page hpage => ?_, ?_, ?_⟩
          · cases List.mem_append.1 hpage with
            | inl hpage =>
              have hfit := htaken.fits page hpage
              exact ⟨hfit.listed, hfit.length, hfit.plain⟩
            | inr hpage =>
              have hfit := hfits page hpage
              exact ⟨hfit.listed, hfit.length, hfit.plain⟩
          · simp only [Owner.writeDelta, htaken.log, List.append_assoc, Delta.got]
          · simp only [Owner.writeDelta, htaken.store, if_true, List.foldl_append, Delta.got]
        exact .taking htaken' rfl hfin
    | commitEnd =>
      simp only [Owner.step, Owner.commitEnd, hwrite] at hstep
      obtain ⟨_, hcomplete, hstep⟩ := bind_eq_ok.1 hstep
      cases hstep
      rw [Delta.complete] at hcomplete
      split at hcomplete
      · cases hcomplete
      rename_i hall
      exact .finished ⟨htaken.begun, htaken.received, htaken.nodup, htaken.fits, htaken.log, htaken.store⟩ rfl rfl
        (not_not.1 hall)
  | finished htaken hwrite hfin hcard =>
    cases frame with
    | commitBegin cb =>
      simp only [Owner.step, Owner.commitBegin, hwrite] at hstep
      cases hstep
    | commitPages pages =>
      simp only [Owner.step, Owner.commitPages, hwrite] at hstep
      cases hstep
    | commitEnd =>
      simp only [Owner.step, Owner.commitEnd, hwrite] at hstep
      cases hstep

theorem Owner.Stage.run {base : DeltaBase} {frames : List DeltaFrame} : ∀ {o o' : Owner}, o.Stage base store →
    Owner.run base checkMeta frames o = .ok o' → o'.Stage base store := by
  induction frames with
  | nil =>
    intro o o' hstage h
    cases h
    exact hstage
  | cons frame frames ih =>
    intro o o' hstage h
    rw [Owner.run] at h
    obtain ⟨o₁, hstep, h⟩ := bind_eq_ok.1 h
    exact ih (hstage.step hstep) h

/-- What an accepted delta has written. -/
theorem taken_of_run {base : DeltaBase} {frames : List DeltaFrame}
    (h : Owner.run base checkMeta frames (Owner.granted store) = .ok o) (hfin : o.finishing = some delta) :
    ∃ body, o.Taken base store delta body ∧ delta.received.card = delta.expected.length := by
  have hstage : o.Stage base store := Owner.Stage.run (.waiting rfl rfl rfl rfl) h
  cases hstage with
  | waiting _ _ _ hnone => rw [hnone] at hfin; cases hfin
  | failed _ _ hnone => rw [hnone] at hfin; cases hfin
  | taking _ _ hnone => rw [hnone] at hfin; cases hfin
  | finished htaken _ hsome hcard =>
    rw [hsome] at hfin
    cases hfin
    exact ⟨_, htaken, hcard⟩

end Jed.Commit
