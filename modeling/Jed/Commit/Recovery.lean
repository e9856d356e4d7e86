import Jed.Commit.Accept

/-!
# Recovery of accepted deltas

Recovery walks the manifest that the owner has checked, over the pages of the store. Where the delta meets
what recovery asks and `begin_delta` does not, it finds the listed pages and those of the chain.
-/

namespace Jed.Commit

open Key PMap Codec Wire Results

/-- What recovery asks of an entry. -/
def Sound (encrypted : Bool) (pageCount : Nat) (read : Pages) (e : Nat × Nat) : Prop :=
  firstBody encrypted ≤ e.1 ∧ e.1 < pageCount ∧
    ∃ page, read e.1 = .ok page ∧ (extend 0 page).toNat = e.2 ∧ typed encrypted page = .ok true

theorem checkEntries_iff {encrypted : Bool} {pageCount : ℕ} {read : Pages} {onChain : Bool}
    {entries : List (ℕ × ℕ)} {c c' : Checked} :
    checkEntries encrypted pageCount read onChain entries c = .ok c' ↔
      Ascending c.last (idsOf entries) ∧ (∀ e ∈ entries, Sound encrypted pageCount read e) ∧
      (onChain = true → ∀ e ∈ entries, e.1 ∉ c.ids) ∧
      c' = ⟨(idsOf entries).getLastD c.last, c.ids ∪ (idsOf entries).toFinset⟩ := by
  induction entries generalizing c with
  | nil =>
    simp only [checkEntries, Except.ok.injEq, idsOf, List.map_nil, List.getLastD_nil,
      List.toFinset_nil, Finset.union_empty, List.not_mem_nil, false_imp_iff, implies_true,
      true_and]
    constructor
    · intro h
      exact ⟨List.isChain_singleton _, h.symm⟩
    · intro h
      exact h.2.symm
  | cons e entries ih =>
    obtain ⟨id, digest⟩ := e
    have hstep : checkEntries encrypted pageCount read onChain ((id, digest) :: entries) c = .ok c' ↔
        c.last < id ∧ Sound encrypted pageCount read (id, digest) ∧ (onChain = true → id ∉ c.ids) ∧
        checkEntries encrypted pageCount read onChain entries ⟨id, insert id c.ids⟩ = .ok c' := by
      rw [checkEntries]
      unfold Sound
      split
      · rename_i hbad
        constructor
        · intro h
          cases h
        · rintro ⟨hlast, ⟨hfirst, hcount, -⟩, hnew, -⟩
          apply absurd hbad
          simp only [not_or, not_and]
          exact ⟨by omega, by omega, by omega, hnew⟩
      · rename_i hgood
        simp only [not_or, not_and, not_lt, not_le] at hgood
        obtain ⟨hfirst, hlast, hcount, hnew⟩ := hgood
        simp only [hlast, hfirst, hcount, true_and]
        cases hread : read id with
        | error f => simp [bind, Except.bind]
        | ok page =>
          simp only [bind, Except.bind, Except.ok.injEq, exists_eq_left']
          by_cases hdigest : (extend 0 page).toNat = digest
          · cases htyped : typed encrypted page with
            | error f => simp [hdigest]
            | ok b =>
              cases b with
              | false => simp [hdigest, throw, throwThe, MonadExceptOf.throw]
              | true =>
                simp only [hdigest, ne_eq, not_true_eq_false, if_false, Bool.not_true, Bool.false_eq_true,
                  true_and]
                exact ⟨fun h => ⟨hnew, h⟩, And.right⟩
          · simp [hdigest, throw, throwThe, MonadExceptOf.throw]
    rw [hstep, ih]
    simp only [Ascending, List.map_cons, List.isChain_cons_cons, List.forall_mem_cons,
      List.getLastD_cons, List.toFinset_cons, Finset.union_insert, Finset.insert_union]
    constructor
    · rintro ⟨hlast, hsound, hnew, hasc, hall, hapart, hc⟩
      refine ⟨⟨hlast, hasc⟩, ⟨hsound, hall⟩, fun hon => ⟨hnew hon, fun e he hmem => ?_⟩, hc⟩
      exact hapart hon e he (Finset.mem_insert_of_mem hmem)
    · rintro ⟨⟨hlast, hasc⟩, ⟨hsound, hall⟩, hapart, hc⟩
      refine ⟨hlast, hsound, fun hon => (hapart hon).1, hasc, hall, fun hon e he hmem => ?_, hc⟩
      cases Finset.mem_insert.mp hmem with
      | inl heq => exact (Ascending.lt hasc (List.mem_map_of_mem he)).ne' heq
      | inr hmem => exact (hapart hon).2 e he hmem

variable {pages : List IndexedPage}

theorem pages_unwritten {id : ℕ} (hid : id ∉ indices pages) : ∀ {s : PageStore},
    (pages.foldl PageStore.writeBlock s).pages id = s.pages id := by
  induction pages with
  | nil => exact rfl
  | cons page pages ih =>
    intro s
    rw [indices, List.map_cons, List.mem_cons, not_or] at hid
    rw [List.foldl_cons, ih hid.2]
    exact Function.update_of_ne hid.1 _ _

theorem pages_written (hnodup : (indices pages).Nodup) {page : IndexedPage}
    (hpage : page ∈ pages) : ∀ {s : PageStore},
    (pages.foldl PageStore.writeBlock s).pages page.index.toNat = page.page := by
  induction pages with
  | nil => cases hpage
  | cons x pages ih =>
    intro s
    rw [indices, List.map_cons, List.nodup_cons] at hnodup
    rw [List.foldl_cons]
    cases hpage with
    | head =>
      rw [pages_unwritten hnodup.1]
      exact Function.update_self ..
    | tail _ hpage => exact ih hnodup.2 hpage

theorem physical_written : ∀ {s : PageStore}, (pages.foldl PageStore.writeBlock s).physical = s.physical := by
  induction pages with
  | nil => exact rfl
  | cons page pages ih =>
    intro s
    rw [List.foldl_cons, ih]
    rfl

/-- A page that is written once is the only one of its id among the written. -/
theorem filter_of_nodup (hnodup : (indices pages).Nodup) {page : IndexedPage}
    (hpage : page ∈ pages) : pages.filter (fun x => x.index.toNat = page.index.toNat) = [page] := by
  induction pages with
  | nil => cases hpage
  | cons x pages ih =>
    rw [indices, List.map_cons, List.nodup_cons] at hnodup
    cases hpage with
    | head =>
      rw [List.filter_cons_of_pos (by simp)]
      refine congrArg (_ :: ·) (List.filter_eq_nil_iff.2 fun y hy heq => hnodup.1 ?_)
      rw [← of_decide_eq_true heq]
      exact List.mem_map_of_mem hy
    | tail _ hpage =>
      have hne : ¬ x.index.toNat = page.index.toNat := by
        intro heq
        apply hnodup.1
        rw [heq]
        exact List.mem_map_of_mem hpage
      rw [List.filter_cons_of_neg (by simpa using hne)]
      exact ih hnodup.2 hpage

/-- The store of a committed generation whose delta base is `base`: the fallback generation's pages are
below the high-water mark and not granted, and the pending pages are there. -/
structure Committed (base : DeltaBase) (store : PageStore) (fallback : Finset Nat) : Prop where
  fallback : ∀ id ∈ fallback, id < base.pageCount ∧ base.grants id = false
  pending : ∀ {id digest : Nat}, base.pending.lookup id = some digest →
    firstBody base.encrypted ≤ id ∧ id < base.pageCount ∧ (extend 0 (store.pages id)).toNat = digest ∧
      typed base.encrypted (store.pages id) = .ok true

/-- The condition: what recovery asks of a delta and `begin_delta` does not. The reserved bytes of the meta
and the unused tail of its inline area are zero, the meta is of the base's suite, and no listed page is a
page of the manifest chain. -/
structure Agrees (base : DeltaBase) (delta : Delta) : Prop where
  reserved : zeroes delta.metaPage 60 64 = true
  suite : suited delta.metaPage = base.encrypted
  tail : zeroes delta.metaPage ((inlineArea delta.metaPage.length base.encrypted).1 +
    (inlineEntries delta.metaPage base.encrypted).length * ENTRY)
      (inlineArea delta.metaPage.length base.encrypted).2 = true
  apart : ∀ id ∈ idsOf delta.listed, id ∉ indices delta.manifest

/-- A delta whose pages the owner `o` has written: beyond the high-water mark or in the grant, each listed page
once as listed, or by an earlier commit of the batch, and nothing of the fallback generation; and recovery finds
the pages it lists and those of its chain. -/
structure Recoverable (base : DeltaBase) (fallback : Finset Nat) (delta : Delta) (o : Owner) : Prop where
  granted : ∀ page ∈ o.log, base.pageCount ≤ page.index.toNat ∨ base.grants page.index.toNat = true
  once : ∀ e ∈ delta.listed, base.pending.lookup e.1 = some e.2 ∧ e.1 ∉ indices o.log ∨
    ∃ page, o.log.filter (fun x => x.index.toNat = e.1) = [page] ∧ (extend 0 page.page).toNat = e.2
  fallback : ∀ page ∈ o.log, page.index.toNat ∉ fallback
  recovered : validate delta.metaPage o.store.physical o.store.read =
    .ok (some ((idsOf delta.listed).toFinset ∪ (indices delta.manifest).toFinset))

section Recover

variable {base : DeltaBase} {store : PageStore} {o : Owner} {delta : Delta} {body : List IndexedPage}
  {fallback : Finset ℕ}

theorem lookup_mem {l : List (ℕ × ℕ)} {k v : ℕ} (h : l.lookup k = some v) : (k, v) ∈ l := by
  induction l with
  | nil => cases h
  | cons e l ih =>
    obtain ⟨k', v'⟩ := e
    rw [List.lookup_cons] at h
    split at h
    · rename_i heq
      cases h
      rw [beq_iff_eq.1 heq]
      exact List.mem_cons_self ..
    · exact List.mem_cons_of_mem _ (ih h)

variable {e : ℕ × ℕ}

theorem lookup_of_mem {l : List (ℕ × ℕ)} (hnodup : (idsOf l).Nodup) (he : e ∈ l) :
    l.lookup e.1 = some e.2 := by
  induction l with
  | nil => cases he
  | cons x l ih =>
    rw [idsOf, List.map_cons, List.nodup_cons] at hnodup
    rw [List.lookup_cons]
    cases he with
    | head => rw [beq_self_eq_true]
    | tail _ he =>
      have hne : (e.1 == x.1) = false := by
        rw [beq_eq_false_iff_ne]
        intro heq
        apply hnodup.1
        rw [← heq]
        exact List.mem_map_of_mem he
      rw [hne]
      exact ih hnodup.2 he

theorem Delta.Begun.listed_nodup (h : delta.Begun base) : (idsOf delta.listed).Nodup := h.ascending.nodup

theorem Delta.Begun.expected_nodup (h : delta.Begun base) : (idsOf delta.expected).Nodup := by
  rw [h.expected]
  exact (List.filter_sublist.map Prod.fst).nodup h.listed_nodup

/-- The pages sent are the listed ones that are not pending. -/
theorem Owner.Taken.sent (h : o.Taken base store delta body)
    (hcard : delta.received.card = delta.expected.length) (he : e ∈ base.sent delta.listed) :
    ∃ page ∈ body, page.index.toNat = e.1 ∧ (extend 0 page.page).toNat = e.2 ∧ delta.Fits page := by
  have hnodup := h.begun.expected_nodup
  have hsub : delta.received ⊆ (idsOf delta.expected).toFinset := by
    intro id hid
    rw [h.received, List.mem_toFinset] at hid
    obtain ⟨page, hpage, rfl⟩ := List.mem_map.1 hid
    rw [List.mem_toFinset]
    exact List.mem_map.2 ⟨_, lookup_mem (h.fits page hpage).listed, rfl⟩
  have heq : delta.received = (idsOf delta.expected).toFinset := by
    apply Finset.eq_of_subset_of_card_le hsub
    rw [List.toFinset_card_of_nodup hnodup, hcard, idsOf, List.length_map]
  rw [← h.begun.expected] at he
  have hmem : e.1 ∈ indices body := by
    rw [← List.mem_toFinset, ← h.received, heq, List.mem_toFinset]
    exact List.mem_map_of_mem he
  obtain ⟨page, hpage, hid⟩ := List.mem_map.1 hmem
  have hfits := h.fits page hpage
  have hlisted := hfits.listed
  rw [hid, lookup_of_mem hnodup he] at hlisted
  exact ⟨page, hpage, hid, (Option.some.inj hlisted).symm, hfits⟩

theorem Owner.Taken.body_sent (h : o.Taken base store delta body) {page : IndexedPage} (hpage : page ∈ body) :
    (page.index.toNat, (extend 0 page.page).toNat) ∈ base.sent delta.listed := by
  rw [← h.begun.expected]
  exact lookup_mem (h.fits page hpage).listed

theorem mem_sent {entries : List (ℕ × ℕ)} :
    e ∈ base.sent entries ↔ e ∈ entries ∧ base.pending.lookup e.1 = none := by
  rw [DeltaBase.sent, List.mem_filter, Option.isNone_iff_eq_none]

theorem Owner.Taken.legal (h : o.Taken base store delta body) {page : IndexedPage} (hpage : page ∈ o.log) :
    base.legal page.index.toNat delta.pageCount = true := by
  rw [h.log] at hpage
  cases List.mem_append.1 hpage with
  | inl hpage => exact h.begun.chain_legal _ (List.mem_map_of_mem hpage)
  | inr hpage =>
    obtain ⟨hlisted, hnone⟩ := mem_sent.1 (h.body_sent hpage)
    cases h.begun.lists _ hlisted with
    | inl hpending =>
      rw [hnone] at hpending
      cases hpending
    | inr hlegal => exact hlegal.2

theorem DeltaBase.legal_iff {index pageCount : ℕ} : base.legal index pageCount = true ↔
    firstBody base.encrypted ≤ index ∧ index < pageCount ∧
      (base.pageCount ≤ index ∨ base.grants index = true) := by
  simp only [DeltaBase.legal, Bool.and_eq_true, Bool.or_eq_true, decide_eq_true_eq, and_assoc]

theorem Owner.Taken.log_nodup (h : o.Taken base store delta body) (hagrees : Agrees base delta) :
    (indices o.log).Nodup := by
  rw [h.log, indices_append, List.nodup_append]
  refine ⟨h.begun.chain_nodup, h.nodup, fun id hid x hx heq => ?_⟩
  obtain ⟨page, hpage, rfl⟩ := List.mem_map.1 hx
  have hlisted := (mem_sent.1 (h.body_sent hpage)).1
  refine hagrees.apart _ (List.mem_map_of_mem hlisted) ?_
  rw [← heq]
  exact hid

theorem Owner.Taken.pending_unwritten (h : o.Taken base store delta body) (hagrees : Agrees base delta)
    (he : e ∈ delta.listed) (hpending : base.pending.lookup e.1 = some e.2) : e.1 ∉ indices o.log := by
  rw [h.log, indices_append, List.mem_append, not_or]
  refine ⟨hagrees.apart _ (List.mem_map_of_mem he), fun hmem => ?_⟩
  obtain ⟨page, hpage, hid⟩ := List.mem_map.1 hmem
  have hnone := (mem_sent.1 (h.body_sent hpage)).2
  rw [hid, hpending] at hnone
  cases hnone

theorem Committed.pageRead (hbase : Committed base store fallback) (h : o.Taken base store delta body)
    (hcard : delta.received.card = delta.expected.length) (hagrees : Agrees base delta)
    (he : e ∈ delta.listed) :
    Sound (suited delta.metaPage) (u32At delta.metaPage 24) o.store.read e := by
  have hnodup := h.log_nodup hagrees
  rw [h.log] at hnodup
  rw [hagrees.suite, ← h.begun.pageCount]
  cases h.begun.lists e he with
  | inl hpending =>
    obtain ⟨hfirst, hcount, hdigest, htyped⟩ := hbase.pending hpending
    have hcovers := h.begun.covers
    refine ⟨hfirst, by omega, store.pages e.1, ?_, hdigest, htyped⟩
    rw [PageStore.read, h.store, pages_unwritten]
    · rfl
    · rw [← h.log]
      exact h.pending_unwritten hagrees he hpending
  | inr hlegal =>
    obtain ⟨hnone, hlegal⟩ := hlegal
    obtain ⟨hfirst, hcount, -⟩ := DeltaBase.legal_iff.1 hlegal
    obtain ⟨page, hpage, hid, hdigest, hfits⟩ := h.sent hcard (mem_sent.2 ⟨he, hnone⟩)
    refine ⟨hfirst, hcount, page.page, ?_, hdigest, ?_⟩
    · rw [PageStore.read, h.store, ← hid, pages_written hnodup (List.mem_append_right _ hpage)]
    · cases hencrypted : base.encrypted with
      | true => rfl
      | false =>
        have hplain := hfits.plain
        rw [Delta.plainOk, h.begun.encrypted, hencrypted, Bool.false_or] at hplain
        simp only [Bool.and_eq_true, decide_eq_true_eq, beq_iff_eq] at hplain
        obtain ⟨htype, hcrc⟩ := hplain
        have hparses := h.begun.parses
        have hlong : PAGE_HEADER ≤ page.page.length := by
          rw [hfits.length]
          simp only [metaParses, Bool.and_eq_true, decide_eq_true_eq] at hparses
          unfold PAGE_HEADER
          omega
        have hstamp : ¬ (pageCrc page.page).toNat ≠ beNat ((page.page.drop 12).take 4) := not_not.mpr hcrc
        rw [typed, if_neg (by decide), parsePage, if_neg (not_lt.mpr hlong), if_neg hstamp]
        simp only [bind, Except.bind, pure, Except.pure, Except.ok.injEq, decide_eq_true_eq]
        exact htype

/-- A chain of pages lists no more entries than they hold. -/
theorem Chained.remaining_le {txid ps : ℕ} {pages : List IndexedPage} : ∀ {ordinal id remaining : ℕ},
    Chained txid ps pages ordinal id remaining → remaining ≤ pages.length * perPage ps := by
  induction pages with
  | nil =>
    intro ordinal id remaining h
    rw [h.2]
    exact Nat.zero_le _
  | cons page pages ih =>
    intro ordinal id remaining h
    obtain ⟨-, -, header, -, -, hrest⟩ := h
    have hle := ih hrest
    rw [List.length_cons, Nat.succ_mul]
    omega

/-- The manifest chain passes recovery. -/
theorem checkChain_of {encrypted : Bool} {m : Bytes} {read : Pages} {pages : List IndexedPage} :
    ∀ {ordinal next remaining : ℕ} {digest : UInt64} {c : Checked},
    Chained (u64At m 12) m.length pages ordinal next remaining →
    (∀ page ∈ pages, read page.index.toNat = .ok page.page) →
    (∀ id ∈ indices pages, firstBody encrypted ≤ id ∧ id < u32At m 24 ∧ id ≠ u32At m 20 ∧ id ≠ u32At m 28) →
    (indices pages).Nodup → (∀ id ∈ indices pages, id ∉ c.ids) →
    Ascending c.last (idsOf (overflowEntries m.length pages remaining)) →
    (∀ e ∈ overflowEntries m.length pages remaining, Sound encrypted (u32At m 24) read e) →
    (∀ e ∈ overflowEntries m.length pages remaining, e.1 ∉ c.ids ∧ e.1 ∉ indices pages) →
    ∃ last, checkChain encrypted m read pages.length ordinal next remaining digest c =
      .ok (0, 0, chainDigest pages digest, ⟨last, c.ids ∪ ((indices pages).toFinset ∪
        (idsOf (overflowEntries m.length pages remaining)).toFinset)⟩) := by
  induction pages with
  | nil =>
    intro ordinal next remaining digest c hchained _ _ _ _ _ _ _
    obtain ⟨rfl, rfl⟩ := hchained
    refine ⟨c.last, ?_⟩
    simp only [List.length_nil, checkChain, chainDigest, List.foldl_nil, indices, List.map_nil, overflowEntries, idsOf,
      List.toFinset_nil, Finset.union_empty]
  | cons page pages ih =>
    intro ordinal next remaining digest c hchained hread hids hnodup hnew hascending hsound hfresh
    obtain ⟨rfl, hlength, header, hheader, hpage, hrest⟩ := hchained
    rw [indices, List.map_cons, List.nodup_cons] at hnodup
    rw [overflowEntries, idsOf, List.map_append, ascending_append] at hascending
    rw [overflowEntries] at hsound hfresh
    have hself : page.index.toNat ∈ indices (page :: pages) := List.mem_cons_self ..
    obtain ⟨hfirst, hcount, hroot, hfree⟩ := hids _ hself
    have hentries : checkEntries encrypted (u32At m 24) read true
        (entriesAt page.page OVERFLOW_HEADER (min remaining (perPage m.length)))
        ⟨c.last, insert page.index.toNat c.ids⟩ = .ok
        ⟨(idsOf (entriesAt page.page OVERFLOW_HEADER (min remaining (perPage m.length)))).getLastD c.last,
          insert page.index.toNat c.ids ∪
            (idsOf (entriesAt page.page OVERFLOW_HEADER (min remaining (perPage m.length)))).toFinset⟩ := by
      rw [checkEntries_iff]
      refine ⟨hascending.1, fun e he => hsound e (List.mem_append_left _ he), fun _ e he => ?_, rfl⟩
      have hfr := hfresh e (List.mem_append_left _ he)
      rw [Finset.mem_insert, not_or]
      exact ⟨fun heq => hfr.2 (by rw [heq]; exact hself), hfr.1⟩
    have hnew' : ∀ id ∈ indices pages, id ∉ insert page.index.toNat c.ids ∪
        (idsOf (entriesAt page.page OVERFLOW_HEADER (min remaining (perPage m.length)))).toFinset := by
      intro id hid
      rw [Finset.mem_union, Finset.mem_insert, List.mem_toFinset, not_or, not_or]
      refine ⟨⟨fun heq => hnodup.1 (by rw [← heq]; exact hid), hnew id (List.mem_cons_of_mem _ hid)⟩, fun hmem => ?_⟩
      obtain ⟨e, he, rfl⟩ := List.mem_map.1 hmem
      exact (hfresh e (List.mem_append_left _ he)).2 (List.mem_cons_of_mem _ hid)
    have hfresh' : ∀ e ∈ overflowEntries m.length pages (remaining - min remaining (perPage m.length)),
        e.1 ∉ insert page.index.toNat c.ids ∪
          (idsOf (entriesAt page.page OVERFLOW_HEADER (min remaining (perPage m.length)))).toFinset ∧
        e.1 ∉ indices pages := by
      intro e he
      have hfr := hfresh e (List.mem_append_right _ he)
      refine ⟨?_, fun hmem => hfr.2 (List.mem_cons_of_mem _ hmem)⟩
      rw [Finset.mem_union, Finset.mem_insert, List.mem_toFinset, not_or, not_or]
      refine ⟨⟨fun heq => hfr.2 (by rw [heq]; exact hself), hfr.1⟩, fun hmem => ?_⟩
      have hsorted := (ascending_append.2 hascending).nodup
      exact (List.nodup_append.1 hsorted).2.2 _ hmem _ (List.mem_map_of_mem he) rfl
    obtain ⟨last, hlast⟩ := @ih (ordinal + 1) header.nextPage (remaining - min remaining (perPage m.length))
      (extend (extend digest (beBytes 4 page.index.toNat)) page.page)
      ⟨(idsOf (entriesAt page.page OVERFLOW_HEADER (min remaining (perPage m.length)))).getLastD c.last,
        insert page.index.toNat c.ids ∪
          (idsOf (entriesAt page.page OVERFLOW_HEADER (min remaining (perPage m.length)))).toFinset⟩ hrest
      (fun x hx => hread x (List.mem_cons_of_mem _ hx)) (fun id hid => hids id (List.mem_cons_of_mem _ hid))
      hnodup.2 hnew' hascending.2 (fun e he => hsound e (List.mem_append_right _ he)) hfresh'
    refine ⟨last, ?_⟩
    rw [List.length_cons, checkChain, if_neg]
    · rw [hread page (List.mem_cons_self ..)]
      show (parsePage page.page >>= _) = _
      rw [hheader]
      show (if (!manifestPage (u64At m 12) page.page header (min remaining (perPage m.length)) ordinal) = true then
        throw invalidManifest else checkEntries encrypted (u32At m 24) read true
          (entriesAt page.page OVERFLOW_HEADER (min remaining (perPage m.length)))
          ⟨c.last, insert page.index.toNat c.ids⟩ >>= _) = _
      rw [if_neg (by rw [hpage]; decide), hentries]
      refine hlast.trans ?_
      have hunion : ∀ A B C : Finset ℕ, insert page.index.toNat c.ids ∪ A ∪ (B ∪ C) =
          c.ids ∪ (insert page.index.toNat B ∪ (A ∪ C)) := by
        intro A B C
        ext x
        simp only [Finset.mem_union, Finset.mem_insert]
        tauto
      simp only [hunion, indices, List.map_cons, List.toFinset_cons, overflowEntries, idsOf, List.map_append,
        List.toFinset_append, chainDigest, List.foldl_cons]
    · simp only [not_or, not_lt, not_le]
      exact ⟨hfirst, hcount, hroot, hfree, hnew _ hself⟩

/-- Listed and chain pages are different body pages of the commit, so it has room for them. -/
theorem Owner.Taken.room (h : o.Taken base store delta body) (hagrees : Agrees base delta)
    (hlisted : ∀ e ∈ delta.listed, firstBody base.encrypted ≤ e.1 ∧ e.1 < u32At delta.metaPage 24) :
    firstBody base.encrypted < u32At delta.metaPage 24 ∧ u32At delta.metaPage 40 + u32At delta.metaPage 44 ≤
      u32At delta.metaPage 24 - firstBody base.encrypted := by
  have hsub : (idsOf delta.listed).toFinset ∪ (indices delta.manifest).toFinset ⊆
      Finset.Ico (firstBody base.encrypted) (u32At delta.metaPage 24) := by
    intro id hid
    rw [Finset.mem_Ico]
    cases Finset.mem_union.1 hid with
    | inl hid =>
      obtain ⟨e, he, rfl⟩ := List.mem_map.1 (List.mem_toFinset.1 hid)
      exact hlisted e he
    | inr hid =>
      have hlegal := h.begun.chain_legal id (List.mem_toFinset.1 hid)
      obtain ⟨hfirst, hcount, -⟩ := DeltaBase.legal_iff.1 hlegal
      rw [h.begun.pageCount] at hcount
      exact ⟨hfirst, hcount⟩
  have hdisjoint : Disjoint (idsOf delta.listed).toFinset (indices delta.manifest).toFinset := by
    rw [Finset.disjoint_left]
    intro id hid hchain
    exact hagrees.apart id (List.mem_toFinset.1 hid) (List.mem_toFinset.1 hchain)
  have hcard := Finset.card_le_card hsub
  rw [Finset.card_union_of_disjoint hdisjoint, List.toFinset_card_of_nodup h.begun.listed_nodup,
    List.toFinset_card_of_nodup h.begun.chain_nodup, Nat.card_Ico, idsOf, List.length_map, h.begun.length, indices,
    List.length_map, h.begun.manifest_length] at hcard
  have hsome := h.begun.some_listed
  omega

theorem overflowNeeded_le {ps count n : ℕ} {encrypted : Bool}
    (h : count - (capacities ps encrypted).1 ≤ n * perPage ps) : overflowNeeded ps encrypted count ≤ n := by
  show (count - (capacities ps encrypted).1 + perPage ps - 1) / perPage ps ≤ n
  by_cases hzero : perPage ps = 0
  · rw [hzero, Nat.div_zero]
    exact Nat.zero_le _
  · rw [← Nat.lt_succ_iff, Nat.div_lt_iff_lt_mul (Nat.pos_of_ne_zero hzero), Nat.succ_mul]
    omega

theorem validateInner_of (hbase : Committed base store fallback) (h : o.Taken base store delta body)
    (hcard : delta.received.card = delta.expected.length) (hagrees : Agrees base delta) :
    validateInner delta.metaPage o.store.physical o.store.read =
      .ok ((idsOf delta.listed).toFinset ∪ (indices delta.manifest).toFinset) := by
  have hbegun := h.begun
  have hsuite := hagrees.suite
  have hsound : ∀ e ∈ delta.listed, Sound (suited delta.metaPage) (u32At delta.metaPage 24) o.store.read e :=
    fun e he => hbase.pageRead h hcard hagrees he
  have hroom := h.room hagrees fun e he => by
    have hs := hsound e he
    rw [hsuite] at hs
    exact ⟨hs.1, hs.2.1⟩
  have hphysical : u32At delta.metaPage 24 ≤ o.store.physical := by
    rw [h.store, physical_written, ← hbegun.pageCount]
    exact Nat.le_max_right _ _
  have hlisting : delta.listed = inlineEntries delta.metaPage base.encrypted ++
      overflowEntries delta.metaPage.length delta.manifest
        (u32At delta.metaPage 40 - (inlineEntries delta.metaPage base.encrypted).length) :=
    Delta.listed_of rfl hbegun.encrypted rfl rfl
  have hchained := hbegun.chained
  rw [hbegun.encrypted] at hchained
  have hnodup := h.log_nodup hagrees
  rw [h.log] at hnodup
  have hinline : (inlineEntries delta.metaPage base.encrypted).length =
      min (u32At delta.metaPage 40) (capacities delta.metaPage.length base.encrypted).1 := length_entriesAt _ _ _
  have hneeded : overflowNeeded delta.metaPage.length base.encrypted (u32At delta.metaPage 40) ≤
      u32At delta.metaPage 44 := by
    have hle := hchained.remaining_le
    rw [hbegun.manifest_length, hinline] at hle
    exact overflowNeeded_le (by omega)
  have hchainIds : ∀ id ∈ indices delta.manifest, firstBody base.encrypted ≤ id ∧ id < u32At delta.metaPage 24 ∧
      id ≠ u32At delta.metaPage 20 ∧ id ≠ u32At delta.metaPage 28 := by
    intro id hid
    obtain ⟨hfirst, hcount, -⟩ := DeltaBase.legal_iff.1 (hbegun.chain_legal id hid)
    rw [hbegun.pageCount] at hcount
    refine ⟨hfirst, hcount, fun heq => hagrees.apart _ hbegun.root (by rw [← heq]; exact hid), fun heq => ?_⟩
    cases hbegun.freeHead with
    | inl hzero =>
      have hpos : 0 < firstBody base.encrypted := by cases base.encrypted <;> decide
      omega
    | inr hmem => exact hagrees.apart _ hmem (by rw [← heq]; exact hid)
  have hnext : u32At delta.metaPage 44 = 0 ↔ u32At delta.metaPage 36 = 0 := by
    rw [← hbegun.manifest_length]
    cases hpages : delta.manifest with
    | nil =>
      rw [hpages] at hchained
      simp only [List.length_nil, true_iff]
      exact hchained.1
    | cons page pages =>
      rw [hpages] at hchained hchainIds
      have hid := (hchainIds page.index.toNat (List.mem_cons_self ..)).1
      have hpos : 0 < firstBody base.encrypted := by cases base.encrypted <;> decide
      rw [hchained.1] at hid
      simp only [List.length_cons, Nat.add_one_ne_zero, false_iff]
      omega
  have hascending := hbegun.ascending
  rw [hlisting, idsOf, List.map_append, ascending_append] at hascending
  have hentries : checkEntries base.encrypted (u32At delta.metaPage 24) o.store.read false
      (inlineEntries delta.metaPage base.encrypted) ⟨1, ∅⟩ =
      .ok ⟨(idsOf (inlineEntries delta.metaPage base.encrypted)).getLastD 1,
        ∅ ∪ (idsOf (inlineEntries delta.metaPage base.encrypted)).toFinset⟩ := by
    rw [checkEntries_iff]
    refine ⟨hascending.1, fun e he => ?_, fun h => (by cases h), rfl⟩
    rw [← hsuite]
    exact hsound e (by rw [hlisting]; exact List.mem_append_left _ he)
  obtain ⟨last, hchain⟩ := @checkChain_of base.encrypted delta.metaPage o.store.read delta.manifest 0
    (u32At delta.metaPage 36) (u32At delta.metaPage 40 - (inlineEntries delta.metaPage base.encrypted).length) 0
    ⟨(idsOf (inlineEntries delta.metaPage base.encrypted)).getLastD 1,
      ∅ ∪ (idsOf (inlineEntries delta.metaPage base.encrypted)).toFinset⟩ hchained
    (fun page hpage => by
      rw [PageStore.read, h.store, pages_written hnodup (List.mem_append_left _ hpage)])
    hchainIds hbegun.chain_nodup
    (fun id hid hmem => by
      rw [Finset.empty_union, List.mem_toFinset] at hmem
      refine hagrees.apart id ?_ hid
      rw [hlisting, idsOf, List.map_append]
      exact List.mem_append_left _ hmem)
    hascending.2
    (fun e he => by
      rw [← hsuite]
      exact hsound e (by rw [hlisting]; exact List.mem_append_right _ he))
    (fun e he => by
      have hmem : e ∈ delta.listed := by
        rw [hlisting]
        exact List.mem_append_right _ he
      refine ⟨fun hinl => ?_, hagrees.apart _ (List.mem_map_of_mem hmem)⟩
      rw [Finset.empty_union, List.mem_toFinset] at hinl
      have hall := (ascending_append.2 hascending).nodup
      exact (List.nodup_append.1 hall).2.2 _ hinl _ (List.mem_map_of_mem he) rfl)
  have hids : ∅ ∪ (idsOf (inlineEntries delta.metaPage base.encrypted)).toFinset ∪
      ((indices delta.manifest).toFinset ∪ (idsOf (overflowEntries delta.metaPage.length delta.manifest
        (u32At delta.metaPage 40 - (inlineEntries delta.metaPage base.encrypted).length))).toFinset) =
      (idsOf delta.listed).toFinset ∪ (indices delta.manifest).toFinset := by
    rw [hlisting, idsOf, idsOf, idsOf, List.map_append, List.toFinset_append, Finset.empty_union, Finset.union_assoc,
      Finset.union_comm (indices delta.manifest).toFinset]
  rw [hids, hbegun.manifest_length] at hchain
  have hcovered : ∀ {id : ℕ}, id ∈ idsOf delta.listed →
      id ∈ (idsOf delta.listed).toFinset ∪ (indices delta.manifest).toFinset :=
    fun hid => Finset.mem_union_left _ (List.mem_toFinset.2 hid)
  unfold validateInner
  rw [hsuite]
  dsimp only
  rw [if_neg]
  · have htail := hagrees.tail
    rw [hinline] at htail hchain
    rw [htail, hentries]
    simp only [bind, Except.bind, hchain, Bool.not_true, Bool.false_eq_true, if_false]
    rw [if_neg]
    · rfl
    · rw [hbegun.digest]
      simp only [ne_eq, not_true_eq_false, false_or, not_or, not_and, not_not]
      refine fun _ => ⟨hcovered hbegun.root, fun hfree => ?_⟩
      exact hcovered (hbegun.freeHead.resolve_left hfree)
  · have hsome := hbegun.some_listed
    simp only [not_or, not_lt, not_le, not_and, not_not, hagrees.reserved, Bool.not_true, Bool.false_eq_true,
      not_false_eq_true, hnext, true_and]
    exact ⟨hphysical, hroom.1, hroom.2, fun h => absurd h hsome, hneeded⟩

/-- Every accepted delta on which `begin_delta` and recovery agree is recoverable. -/
theorem delta_recoverable {checkMeta : Delta → Except Failure Unit} {frames : List DeltaFrame}
    (hbase : Committed base store fallback)
    (hrun : Owner.run base checkMeta frames (Owner.granted store) = .ok o) (hfin : o.finishing = some delta)
    (hagrees : Agrees base delta) : Recoverable base fallback delta o := by
  obtain ⟨body, h, hcard⟩ := taken_of_run hrun hfin
  have hlegal : ∀ page ∈ o.log, base.pageCount ≤ page.index.toNat ∨ base.grants page.index.toNat = true :=
    fun page hpage => (DeltaBase.legal_iff.1 (h.legal hpage)).2.2
  refine ⟨hlegal, fun e he => ?_, fun page hpage hmem => ?_, ?_⟩
  · cases h.begun.lists e he with
    | inl hpending => exact .inl ⟨hpending, h.pending_unwritten hagrees he hpending⟩
    | inr hsent =>
      obtain ⟨page, hpage, hid, hdigest, -⟩ := h.sent hcard (mem_sent.2 ⟨he, hsent.1⟩)
      refine .inr ⟨page, ?_, hdigest⟩
      rw [← hid]
      exact filter_of_nodup (h.log_nodup hagrees) (by rw [h.log]; exact List.mem_append_right _ hpage)
  · obtain ⟨hbelow, hnot⟩ := hbase.fallback _ hmem
    cases hlegal page hpage with
    | inl habove => omega
    | inr hgranted =>
      rw [hnot] at hgranted
      cases hgranted
  · rw [validate, validateInner_of hbase h hcard hagrees]

end Recover

/-- The base of a plain database of five pages, of which page 3 is granted to the client. -/
def grantedBase : DeltaBase := ⟨1, 256, 5, some {3}, [], false⟩

/-- The catalog root that the delta writes over page 3. -/
def bodyPage : Bytes := stampCrc (layPage 256 1 0 0 0 [])

def stampMeta (m : Bytes) : Bytes := m.take 32 ++ (beBytes 4 (metaCrc m).toNat ++ m.drop 36)

/-- The delta's meta page, with its reserved field. -/
def deltaMeta (reserved : Nat) : Bytes :=
  stampMeta (MAGIC ++ (beBytes 2 FORMAT_VERSION ++ ([0, 0] ++ (beBytes 4 256 ++ (beBytes 8 2 ++
    (beBytes 4 3 ++ (beBytes 4 5 ++ (beBytes 4 0 ++ (beBytes 4 0 ++ (beBytes 4 0 ++ (beBytes 4 1 ++
      (beBytes 4 0 ++ (beBytes 8 0 ++ (beBytes 4 1 ++ (beBytes 4 reserved ++ (beBytes 4 3 ++
        (beBytes 8 (extend 0 bodyPage).toNat ++ List.replicate 180 0)))))))))))))))))

/-- The frames of the delta. -/
def deltaFrames (reserved : Nat) : List DeltaFrame :=
  [.commitBegin ⟨2, deltaMeta reserved, []⟩, .commitPages [⟨3, bodyPage⟩], .commitEnd]

/-- What a predicate says of the delta that the owner finishes, and of the owner. -/
def onFinished (reserved : Nat) (p : Owner → Delta → Bool) : Bool :=
  match Owner.run grantedBase (fun _ => .ok ()) (deltaFrames reserved) (Owner.granted ⟨fun _ => [], 5⟩) with
  | .error _ => false
  | .ok o =>
    match o.finishing with
    | none => false
    | some delta => p o delta

theorem of_onFinished (reserved : ℕ) (p : Owner → Delta → Bool) (h : onFinished reserved p = true) :
    ∃ o delta, Owner.run grantedBase (fun _ => .ok ()) (deltaFrames reserved) (Owner.granted ⟨fun _ => [], 5⟩) = .ok o ∧
      o.finishing = some delta ∧ p o delta = true := by
  unfold onFinished at h
  split at h
  · cases h
  · rename_i o hrun
    split at h
    · cases h
    · rename_i delta hfin
      exact ⟨o, delta, hrun, hfin, h⟩

theorem granted_committed : Committed grantedBase ⟨fun _ => [], 5⟩ {2} :=
  ⟨by decide, fun h => (by cases h)⟩

/-- With a zero reserved field the delta is recoverable, and the fallback generation, page 2, is as it was. -/
theorem delta_recoverable_one : ∃ o delta,
    Owner.run grantedBase (fun _ => .ok ()) (deltaFrames 0) (Owner.granted ⟨fun _ => [], 5⟩) = .ok o ∧
      o.finishing = some delta ∧ Recoverable grantedBase {2} delta o := by
  obtain ⟨o, delta, hrun, hfin, hp⟩ := of_onFinished 0 (fun _ delta =>
    zeroes delta.metaPage 60 64 && (suited delta.metaPage == grantedBase.encrypted) && zeroes delta.metaPage
      ((inlineArea delta.metaPage.length grantedBase.encrypted).1 +
        (inlineEntries delta.metaPage grantedBase.encrypted).length * ENTRY)
      (inlineArea delta.metaPage.length grantedBase.encrypted).2 &&
      decide (∀ id ∈ idsOf delta.listed, id ∉ indices delta.manifest)) (by decide +kernel)
  simp only [Bool.and_eq_true, beq_iff_eq, decide_eq_true_eq] at hp
  obtain ⟨⟨⟨hreserved, hsuite⟩, htail⟩, hapart⟩ := hp
  exact ⟨o, delta, hrun, hfin, delta_recoverable granted_committed hrun hfin ⟨hreserved, hsuite, htail, hapart⟩⟩

/-- Recovery over the durable pages finds no committed manifest. -/
def discarded (o : Owner) (delta : Delta) : Bool :=
  match validate delta.metaPage o.store.physical o.store.read with
  | .ok none => true
  | _ => false

/-- With another one the owner accepts it and recovery discards it. -/
theorem reserved_field_discarded : ∃ o delta, Committed grantedBase ⟨fun _ => [], 5⟩ {2} ∧
    Owner.run grantedBase (fun _ => .ok ()) (deltaFrames 1) (Owner.granted ⟨fun _ => [], 5⟩) = .ok o ∧
      o.finishing = some delta ∧ ¬ Recoverable grantedBase {2} delta o := by
  obtain ⟨o, delta, hrun, hfin, hp⟩ := of_onFinished 1 discarded (by decide +kernel)
  refine ⟨o, delta, granted_committed, hrun, hfin, fun h => ?_⟩
  rw [discarded, h.recovered] at hp
  cases hp

end Jed.Commit
