import Jed.Gin.Codec

/-!
# The runs of a posting list

A GIN entry store holds each term's postings as runs, one record key a run. A from-scratch build packs
a posting list greedily; an edit rewrites one run, split in halves while it is over the limit.

The store is a `TableStore` of records with empty rows, read as the sorted map it is
(`Jed.PMap.pmap_refines_sorted_map`).
-/

namespace Jed.Gin

/-- `GIN_RUN_MAX_BYTES` (`gin_runs.rs:20`). -/
def GIN_RUN_MAX_BYTES : Nat := 64

/-- A store of run keys. -/
abbrev EntryStore := List (Bytes × Unit)

/-- `TableStore::insert` (`storage.rs:243-258`): a present key is left alone. -/
def EntryStore.insert (s : EntryStore) (run : Bytes) : Bool × EntryStore :=
  if (SortedMap.get run s).isSome then (false, s) else (true, SortedMap.insert run () s)

/-- `TableStore::remove` (`storage.rs:370-382`). -/
def EntryStore.remove (s : EntryStore) (run : Bytes) : EntryStore := SortedMap.erase run s

/-- `KeyBound` (`pmap.rs:743-751`). -/
structure KeyBound where
  lo : Option Bytes
  loInc : Bool
  hi : Option Bytes
  hiInc : Bool

/-- Whether a key lies within the bound. -/
def KeyBound.contains (b : KeyBound) (key : Bytes) : Bool :=
  b.lo.all (fun lo => if b.loInc then lo ≤ key else lo < key) &&
    b.hi.all (fun hi => if b.hiInc then key ≤ hi else key < hi)

/-- The first key a `scan_range` visits. -/
def EntryStore.scanFirst (s : EntryStore) (b : KeyBound) : Option Bytes :=
  (s.find? (fun e => b.contains e.1)).map Prod.fst

/-- The first key a `scan_range_rev` visits. -/
def EntryStore.scanLast (s : EntryStore) (b : KeyBound) : Option Bytes :=
  (s.reverse.find? (fun e => b.contains e.1)).map Prod.fst

/-- The loop of `prefix_successor` (`gin_runs.rs:52-61`), from the last byte on. -/
def successorRev : Bytes → Option Bytes
  | [] => none
  | last :: rest => if last ≠ 0xFF then some ((last + 1) :: rest) else successorRev rest

attribute [grind =] successorRev

/-- `prefix_successor`. -/
def prefixSuccessor (p : Bytes) : Option Bytes := (successorRev p.reverse).map List.reverse

/-- `pack_runs` (`gin_runs.rs:166-178`) from a run that holds `cur` already. -/
def packFrom (term : Bytes) (cur : List Bytes) : List Bytes → Except Fault (List Bytes)
  | [] => do
    let run ← encodeRun term cur
    .ok [run]
  | key :: keys => do
    let grown ← encodeRun term (cur ++ [key])
    if grown.length ≤ GIN_RUN_MAX_BYTES then packFrom term (cur ++ [key]) keys
    else do
      let run ← encodeRun term cur
      let runs ← packFrom term [key] keys
      .ok (run :: runs)

/-- `pack_runs`. -/
def packRuns (term : Bytes) : List Bytes → Except Fault (List Bytes)
  | [] => .ok []
  | key :: keys => packFrom term [key] keys

variable {keys : List Bytes}

theorem encodeRun_ne_nil {term : Bytes} {run : Bytes} (h : encodeRun term keys = .ok run) : keys ≠ [] := by
  rintro rfl
  cases h

/-- `split_runs` (`gin_runs.rs:182-191`). -/
def splitRuns (term : Bytes) (keys : List Bytes) : Except Fault (List Bytes) :=
  match _h : encodeRun term keys with
  | .error e => .error e
  | .ok run =>
    if _hfit : run.length ≤ GIN_RUN_MAX_BYTES ∨ keys.length = 1 then .ok [run]
    else do
      let mid := (keys.length + 1) / 2
      let left ← splitRuns term (keys.take mid)
      let right ← splitRuns term (keys.drop mid)
      .ok (left ++ right)
termination_by keys.length
decreasing_by
  all_goals
    have hpos := List.length_pos_iff.mpr (encodeRun_ne_nil _h)
    simp only [List.length_take, List.length_drop]
    omega

/-- `term_bound` (`gin_runs.rs:194-201`). -/
def termBound (term : Bytes) : KeyBound := ⟨some term, true, prefixSuccessor term, false⟩

/-- `run_at_or_after` (`gin_runs.rs:204-217`). -/
def runAtOrAfter (s : EntryStore) (term key : Bytes) : Option Bytes :=
  s.scanFirst { termBound term with lo := some (term ++ key) }

/-- `run_before` (`gin_runs.rs:220-229`). -/
def runBefore (s : EntryStore) (term key : Bytes) : Option Bytes :=
  s.scanLast { termBound term with hi := some (term ++ key) }

/-- `replace_run` (`gin_runs.rs:231-237`). -/
def replaceRun (s : EntryStore) (old : Bytes) (runs : List Bytes) : EntryStore :=
  runs.foldl (fun s run => (s.insert run).2) (s.remove old)

/-- The branch of `gin_insert` for a key above every run of its term (`gin_runs.rs:254-262`). -/
def ginAppend (s : EntryStore) (term key : Bytes) : Except Fault (Bool × EntryStore) := do
  let grown ← match runBefore s term key with
    | none => .ok none
    | some run => do
      let keys ← decodeRun term.length run
      let grown ← encodeRun term (keys ++ [key])
      .ok (if grown.length ≤ GIN_RUN_MAX_BYTES then some (replaceRun s run [grown]) else none)
  match grown with
  | some s => .ok (true, s)
  | none => do
    let run ← encodeRun term [key]
    .ok (s.insert run)

/-- `gin_insert` (`gin_runs.rs:242-263`). -/
def ginInsert (s : EntryStore) (term key : Bytes) : Except Fault (Bool × EntryStore) :=
  match runAtOrAfter s term key with
  | some run => do
    let keys ← decodeRun term.length run
    match PMap.searchKeys keys key with
    | .ok _ => .ok (false, s)
    | .error i => do
      let runs ← splitRuns term (keys.insertIdx i key)
      .ok (true, replaceRun s run runs)
  | none => ginAppend s term key

/-- `gin_remove` (`gin_runs.rs:270-285`). -/
def ginRemove (s : EntryStore) (term key : Bytes) : Except Fault (Bool × EntryStore) :=
  match runAtOrAfter s term key with
  | none => .ok (false, s)
  | some run => do
    let keys ← decodeRun term.length run
    match PMap.searchKeys keys key with
    | .error _ => .ok (false, s)
    | .ok i => do
      let keys := keys.eraseIdx i
      let runs ← if keys.isEmpty then .ok [] else splitRuns term keys
      .ok (true, replaceRun s run runs)

/-- Up to this length a storage key fits the two length bytes of a body, beside the 31 keys of at most 64
    bytes that a run may hold. -/
def STORAGE_KEY_MAX : Nat := 63359

/-- A bound on the coded size of keys: two varints of three bytes at most, and the key. -/
def codedBound (keys : List Bytes) : Nat := (keys.map (fun k => k.length + 6)).sum

/-- The run key of a group of keys. -/
def runOf (term : Bytes) (keys : List Bytes) : Bytes := runKey term (keys.getLastD []) keys.dropLast

/-- A run's keys: not empty, from `K`, and over the limit only when alone. -/
structure GroupOk (K : Set Bytes) (term : Bytes) (keys : List Bytes) : Prop where
  nonempty : keys ≠ []
  mem : ∀ k ∈ keys, k ∈ K
  limit : 1 < keys.length → (runOf term keys).length ≤ GIN_RUN_MAX_BYTES

theorem codedBound_append (xs ys : List Bytes) :
    codedBound (xs ++ ys) = codedBound xs + codedBound ys := by simp [codedBound]

theorem codedBound_sublist {xs ys : List Bytes} (h : xs.Sublist ys) :
    codedBound xs ≤ codedBound ys :=
  (h.map _).sum_le_sum (by simp)

theorem length_le_codedBound {k : Bytes} (h : k ∈ keys) :
    k.length + 6 ≤ codedBound keys :=
  List.single_le_sum (by simp) _ (List.mem_map_of_mem h)

theorem short_of_codedBound (h : codedBound keys < 65536) : Short keys := fun k hk => by
  have := length_le_codedBound hk
  omega

theorem encodeBody_le : ∀ {prev : Bytes}, Short keys →
    (encodeBody prev keys).length ≤ codedBound keys := by
  induction keys with
  | nil => intro prev _; exact Nat.zero_le _
  | cons key keys ih =>
    intro prev hshort
    have hkey : key.length < 2 ^ 21 := hshort key (by simp)
    obtain ⟨-, hsk⟩ := sharedPrefix_le prev key
    obtain ⟨-, h1⟩ := @pushVarint_length (sharedPrefix prev key) (by omega)
    obtain ⟨-, h2⟩ := @pushVarint_length (key.length - sharedPrefix prev key) (by omega)
    have hrest := @ih key fun k hk => hshort k (List.mem_cons_of_mem _ hk)
    simp only [encodeBody, codedBound, List.length_append, List.length_drop, List.map_cons,
      List.sum_cons] at hrest ⊢
    omega

theorem encodeRun_ok (term : Bytes) {keys : List Bytes} (hne : keys ≠ [])
    (hbound : codedBound keys.dropLast < 65536) : encodeRun term keys = .ok (runOf term keys) := by
  obtain ⟨rest, last, rfl⟩ : ∃ rest last, keys = rest ++ [last] :=
    ⟨_, _, (List.dropLast_append_getLast hne).symm⟩
  rw [List.dropLast_concat] at hbound
  have hbody : (encodeBody last rest).length < 65536 := (encodeBody_le (short_of_codedBound hbound)).trans_lt hbound
  simp [encodeRun, runOf, hbody]

theorem decodeRun_ok (term : Bytes) (hne : keys ≠ [])
    (hbound : codedBound keys.dropLast < 65536) (hasc : keys.Pairwise (· < ·)) (hkeys : ∀ k ∈ keys, k ≠ []) :
    decodeRun term.length (runOf term keys) = .ok keys := by
  obtain ⟨rest, last, rfl⟩ : ∃ rest last, keys = rest ++ [last] :=
    ⟨_, _, (List.dropLast_append_getLast hne).symm⟩
  rw [List.dropLast_concat] at hbound
  have hshort := short_of_codedBound hbound
  have hrun : runOf term (rest ++ [last]) = runKey term last rest := by simp [runOf]
  rw [hrun]
  exact decodeRun_runKey term (hkeys last (by simp)) hasc
    (fun k hk => hkeys k (List.mem_append_left _ hk)) hshort ((encodeBody_le hshort).trans_lt hbound)

theorem encodeBody_bounds {keys : List Bytes} : ∀ {prev : Bytes},
    2 * keys.length ≤ (encodeBody prev keys).length ∧
      ∀ k ∈ keys, k.length ≤ prev.length + (encodeBody prev keys).length := by
  induction keys with
  | nil => exact ⟨Nat.zero_le _, fun k hk => by cases hk⟩
  | cons key keys ih =>
    intro prev
    obtain ⟨hsp, hsk⟩ := sharedPrefix_le prev key
    have h1 := pushVarint_pos (sharedPrefix prev key)
    have h2 := pushVarint_pos (key.length - sharedPrefix prev key)
    obtain ⟨hnum, hlen⟩ := @ih key
    simp only [encodeBody, List.length_append, List.length_drop, List.length_cons]
    refine ⟨by omega, fun k hk => ?_⟩
    rcases List.mem_cons.mp hk with rfl | hk
    · omega
    · have := hlen k hk
      omega

theorem runOf_append (term : Bytes) (rest : List Bytes) (last : Bytes) :
    runOf term (rest ++ [last]) = runKey term last rest := by simp [runOf]

theorem exists_append_last (h : keys ≠ []) :
    ∃ rest last, keys = rest ++ [last] :=
  ⟨_, _, (List.dropLast_append_getLast h).symm⟩

/-- Of a run's keys all but the last have a short body: of several keys each is within the limit. -/
theorem GroupOk.codedBound_le {K : Set Bytes} {term : Bytes} (h : GroupOk K term keys) :
    codedBound keys.dropLast ≤ 2170 := by
  obtain ⟨rest, last, rfl⟩ := exists_append_last h.nonempty
  rw [List.dropLast_concat]
  by_cases hone : rest = []
  · subst hone
    simp [codedBound]
  · have hpos := List.length_pos_iff.mpr hone
    have hlimit := h.limit (by simpa using hpos)
    simp only [runOf_append, runKey, List.length_append, u16Bytes, List.length_cons, List.length_nil,
      GIN_RUN_MAX_BYTES] at hlimit
    obtain ⟨hnum, hkeys⟩ := @encodeBody_bounds rest last
    have hsum : codedBound rest ≤ rest.length * 70 := by
      have hle := List.sum_le_card_nsmul (rest.map (fun k => k.length + 6)) 70 (by
        intro n hn
        obtain ⟨k, hk, rfl⟩ := List.mem_map.mp hn
        have := hkeys k hk
        omega)
      simpa [codedBound] using hle
    omega

theorem codedBound_single (k : Bytes) : codedBound [k] = k.length + 6 := by simp [codedBound]

section Groups

variable {K : Set Bytes} (hlen : ∀ k ∈ K, k.length ≤ STORAGE_KEY_MAX)
include hlen

variable {keys : List Bytes}

/-- A run's keys with one more among them fit a body. -/
theorem GroupOk.codedBound_insert {term : Bytes} {a b : List Bytes} {k : Bytes} (h : GroupOk K term (a ++ b))
    (hk : k ∈ K) : codedBound (a ++ k :: b).dropLast < 65536 := by
  have hbound := h.codedBound_le
  have hmax : STORAGE_KEY_MAX = 63359 := rfl
  rcases List.eq_nil_or_concat b with rfl | ⟨b, last, rfl⟩
  · rw [List.append_nil] at h hbound
    obtain ⟨rest, last, rfl⟩ := exists_append_last h.nonempty
    have hlast := hlen last (h.mem last (by simp))
    rw [List.dropLast_concat] at hbound ⊢
    rw [codedBound_append, codedBound_single]
    omega
  · have hkey := hlen k hk
    rw [List.concat_eq_append, ← List.append_assoc, List.dropLast_concat, codedBound_append] at hbound
    rw [List.concat_eq_append, show a ++ k :: (b ++ [last]) = (a ++ [k] ++ b) ++ [last] by simp,
      List.dropLast_concat, codedBound_append, codedBound_append, codedBound_single]
    omega

/-- `pack_runs` cuts its keys into groups. -/
theorem packFrom_ok (term : Bytes) : ∀ {cur : List Bytes}, GroupOk K term cur →
    (∀ k ∈ keys, k ∈ K) → ∃ gs : List (List Bytes), packFrom term cur keys = .ok (gs.map (runOf term)) ∧
      gs.flatten = cur ++ keys ∧ ∀ g ∈ gs, GroupOk K term g := by
  induction keys with
  | nil =>
    intro cur hcur _
    have hrun := encodeRun_ok term hcur.nonempty (hcur.codedBound_le.trans_lt (by decide))
    exact ⟨[cur], by simp only [packFrom, hrun]; rfl, by simp, by simpa using hcur⟩
  | cons key keys ih =>
    intro cur hcur hkeys
    have hkey := hkeys key List.mem_cons_self
    have hrest : ∀ k ∈ keys, k ∈ K := fun k hk => hkeys k (List.mem_cons_of_mem _ hk)
    have hgrown := @encodeRun_ok term (cur ++ [key]) (by simp)
      (GroupOk.codedBound_insert hlen (b := []) (by rwa [List.append_nil]) hkey)
    simp only [packFrom, hgrown, bind, Except.bind]
    by_cases hfit : (runOf term (cur ++ [key])).length ≤ GIN_RUN_MAX_BYTES
    · rw [if_pos hfit]
      have hmem : ∀ k ∈ cur ++ [key], k ∈ K := fun k hk => by
        rcases List.mem_append.mp hk with hk | hk
        · exact hcur.mem k hk
        · exact List.mem_singleton.mp hk ▸ hkey
      obtain ⟨gs, hpack, hflat, hok⟩ := @ih (cur ++ [key]) ⟨by simp, hmem, fun _ => hfit⟩ hrest
      exact ⟨gs, hpack, by rw [hflat, List.append_assoc]; rfl, hok⟩
    · rw [if_neg hfit]
      obtain ⟨gs, hpack, hflat, hok⟩ := @ih [key]
        ⟨by simp, by simpa using hkey, by simp⟩ hrest
      have hrun := encodeRun_ok term hcur.nonempty (hcur.codedBound_le.trans_lt (by decide))
      refine ⟨cur :: gs, by simp only [hrun, hpack]; rfl, by simp [hflat], ?_⟩
      intro g hg
      rcases List.mem_cons.mp hg with rfl | hg
      · exact hcur
      · exact hok g hg

theorem packRuns_ok (term : Bytes) (hkeys : ∀ k ∈ keys, k ∈ K) :
    ∃ gs : List (List Bytes), packRuns term keys = .ok (gs.map (runOf term)) ∧ gs.flatten = keys ∧
      ∀ g ∈ gs, GroupOk K term g := by
  cases keys with
  | nil => exact ⟨[], rfl, rfl, by simp⟩
  | cons key keys =>
    have hcur : GroupOk K term [key] :=
      ⟨by simp, by simpa using hkeys key List.mem_cons_self, by simp⟩
    exact packFrom_ok hlen term hcur fun k hk => hkeys k (List.mem_cons_of_mem _ hk)

omit hlen in
theorem dropLast_sublist_dropLast {xs ys : List Bytes} (h : xs.Sublist ys) : xs.dropLast.Sublist ys.dropLast := by
  simpa only [List.dropLast_eq_take, List.tail_reverse, List.reverse_sublist] using h.reverse.tail.reverse

omit hlen in
theorem splitRuns_ok (term : Bytes) (keys : List Bytes) (hne : keys ≠ [])
    (hbound : codedBound keys.dropLast < 65536) (hkeys : ∀ k ∈ keys, k ∈ K) :
    ∃ gs : List (List Bytes), splitRuns term keys = .ok (gs.map (runOf term)) ∧ gs.flatten = keys ∧
      ∀ g ∈ gs, GroupOk K term g := by
  have hrun := encodeRun_ok term hne hbound
  rw [splitRuns]
  split
  · rename_i h
    rw [hrun] at h
    cases h
  · rename_i run h
    obtain rfl := Except.ok.inj (hrun.symm.trans h)
    by_cases hfit : (runOf term keys).length ≤ GIN_RUN_MAX_BYTES ∨ keys.length = 1
    · rw [dif_pos hfit]
      refine ⟨[keys], rfl, by simp, ?_⟩
      simpa using ⟨hne, hkeys, fun hmany => hfit.resolve_right (by omega)⟩
    · rw [dif_neg hfit]
      have hpos := List.length_pos_iff.mpr hne
      have hmany : keys.length ≠ 1 := fun h => hfit (.inr h)
      have hmid : keys.take ((keys.length + 1) / 2) ≠ [] := by
        simp only [ne_eq, List.take_eq_nil_iff, not_or]
        exact ⟨by omega, hne⟩
      have hmid' : keys.drop ((keys.length + 1) / 2) ≠ [] := by
        simp only [ne_eq, List.drop_eq_nil_iff]
        omega
      obtain ⟨ls, hl, hlflat, hlok⟩ := splitRuns_ok term (keys.take ((keys.length + 1) / 2)) hmid
        ((codedBound_sublist (dropLast_sublist_dropLast (List.take_sublist _ _))).trans_lt hbound)
        (fun k hk => hkeys k (List.mem_of_mem_take hk))
      obtain ⟨rs, hr, hrflat, hrok⟩ := splitRuns_ok term (keys.drop ((keys.length + 1) / 2)) hmid'
        ((codedBound_sublist (dropLast_sublist_dropLast (List.drop_sublist _ _))).trans_lt hbound)
        (fun k hk => hkeys k (List.mem_of_mem_drop hk))
      refine ⟨ls ++ rs, by simp only [hl, hr, bind, Except.bind, List.map_append], ?_, ?_⟩
      · rw [List.flatten_append, hlflat, hrflat, List.take_append_drop]
      · intro g hg
        exact (List.mem_append.mp hg).elim (hlok g) (hrok g)
termination_by keys.length
decreasing_by
  all_goals
    simp only [List.length_take, List.length_drop]
    omega

end Groups

end Jed.Gin
