import Jed.Lib.Chain
import Jed.Gin.Postings

/-!
# The entry store refines a set of postings

`gin_insert` and `gin_remove` edit one group of one term's list, and the set of postings by one.
-/

namespace Jed.Gin

open PrefixOrder

section Edit

variable {T K : Set Bytes} (hT : PrefixFree T) (hK : PrefixFree K) (hne : [] ∉ K)
  (hlen : ∀ k ∈ K, k.length ≤ STORAGE_KEY_MAX)
  {t k : Bytes} {lists : Bytes → List (List Bytes)} {s : EntryStore}

include hne in
theorem PostingsOk.decodeRun {gs : List (List Bytes)} (h : PostingsOk K t gs) {g : List Bytes}
    (hg : g ∈ gs) : decodeRun t.length (runOf t g) = .ok g := by
  have hok := h.groups g hg
  exact decodeRun_ok t hok.nonempty (hok.codedBound_le.trans_lt (by decide)) (h.group_ascending hg)
    fun k hk hnil => hne (hnil ▸ hok.mem k hk)

/-- The binary search of a group. -/
theorem searchKeys_cut {g : List Bytes} (hg : g.Pairwise (· < ·)) (k : Bytes) :
    match PMap.searchKeys g k with
    | .ok i => ∃ a b, g = a ++ k :: b ∧ g.eraseIdx i = a ++ b
    | .error i => ∃ a b, g = a ++ b ∧ g.insertIdx i k = a ++ k :: b ∧ (∀ x ∈ a, x < k) ∧
        ∀ x ∈ b, k < x := by
  have h := PMap.search_spec g k hg 0 _ (Nat.zero_le _) le_rfl
    (fun _ _ h => absurd h (Nat.not_lt_zero _)) (fun i h h' => absurd h (Nat.not_lt.mpr h'))
  rw [← PMap.searchKeys] at h
  cases hres : PMap.searchKeys g k with
  | ok i =>
    simp only [hres] at h
    obtain ⟨hi, hget⟩ := List.getElem?_eq_some_iff.mp h
    refine ⟨g.take i, g.drop (i + 1), ?_, List.eraseIdx_eq_take_drop_succ g i⟩
    rw [← hget, List.getElem_cons_drop, List.take_append_drop]
  | error i =>
    simp only [hres] at h
    obtain ⟨hi, hbelow, habove⟩ := h
    refine ⟨g.take i, g.drop i, (List.take_append_drop i g).symm, ?_, hbelow, habove⟩
    rw [Splice.insertIdx_eq hi]

/-- The storage keys around a cut. -/
theorem PostingsOk.around_cut {gs L R : List (List Bytes)} {g : List Bytes} (h : PostingsOk K t gs)
    (hcut : gs = L ++ g :: R) (hL : ∀ g ∈ L, lastKey g < k) (hg : k ≤ lastKey g) :
    (∀ x ∈ L.flatten, x < k) ∧ ∀ x ∈ R.flatten, k < x := by
  subst hcut
  obtain ⟨hasc, hpair⟩ := List.pairwise_flatten.mp h.ascending
  refine ⟨fun x hx => ?_, fun x hx => ?_⟩
  · obtain ⟨g', hg', hx⟩ := List.mem_flatten.mp hx
    exact (le_lastKey (hasc g' (List.mem_append_left _ hg')) hx).trans_lt (hL g' hg')
  · obtain ⟨g', hg', hx⟩ := List.mem_flatten.mp hx
    have hlast := (h.groups g (by simp)).lastKey_mem
    have hR := (List.pairwise_cons.mp (List.pairwise_append.mp hpair).2.1).1 g' hg'
    exact hg.trans_lt (hR _ hlast x hx)

/-- A key between the keys of the group at its cut is in no group. -/
theorem PostingsOk.not_mem_cut {gs L R : List (List Bytes)} {a b : List Bytes}
    (h : PostingsOk K t gs) (hcut : gs = L ++ (a ++ b) :: R) (hL : ∀ g ∈ L, lastKey g < k)
    (hg : k ≤ lastKey (a ++ b)) (ha : ∀ x ∈ a, x < k) (hb : ∀ x ∈ b, k < x) : k ∉ gs.flatten := by
  obtain ⟨hbelow, habove⟩ := h.around_cut hcut hL hg
  intro hin
  rw [hcut, List.flatten_append, List.flatten_cons] at hin
  simp only [List.mem_append] at hin
  rcases hin with hin | (hin | hin) | hin
  · exact lt_irrefl k (hbelow k hin)
  · exact lt_irrefl k (ha k hin)
  · exact lt_irrefl k (hb k hin)
  · exact lt_irrefl k (habove k hin)

theorem PostingsOk.replace {L R new : List (List Bytes)} {g : List Bytes}
    (h : PostingsOk K t (L ++ g :: R)) (hnew : ∀ g ∈ new, GroupOk K t g)
    (hasc : (L ++ new ++ R).flatten.Pairwise (· < ·)) : PostingsOk K t (L ++ new ++ R) := by
  refine ⟨fun g' hg' => ?_, hasc⟩
  rw [List.append_assoc, List.mem_append, List.mem_append] at hg'
  rcases hg' with hg' | hg' | hg'
  · exact h.groups g' (by simp [hg'])
  · exact hnew g' hg'
  · exact h.groups g' (by simp [hg'])

theorem PostingsOk.lt_of_lastKey {gs : List (List Bytes)} (h : PostingsOk K t gs)
    (hall : ∀ g ∈ gs, lastKey g < k) : ∀ x ∈ gs.flatten, x < k := by
  intro x hx
  obtain ⟨g, hg, hx⟩ := List.mem_flatten.mp hx
  exact (le_lastKey (h.group_ascending hg) hx).trans_lt (hall g hg)

/-- The groups of a term after a key above all of them has come as a group of its own. -/
theorem PostingsOk.append_single {gs : List (List Bytes)} (h : PostingsOk K t gs) (hk : k ∈ K)
    (hall : ∀ g ∈ gs, lastKey g < k) : PostingsOk K t (gs ++ [[k]]) := by
  refine ⟨fun g hg => ?_, ?_⟩
  · rcases List.mem_append.mp hg with hg | hg
    · exact h.groups g hg
    · obtain rfl := List.mem_singleton.mp hg
      exact ⟨by simp, by simpa using hk, by simp⟩
  · rw [List.flatten_append]
    refine List.pairwise_append.mpr ⟨h.ascending, by simp, fun x hx y hy => ?_⟩
    obtain rfl : y = k := by simpa using hy
    exact h.lt_of_lastKey hall x hx

include hT hK in
/-- A key above every group starts a run. -/
theorem StoreOk.insert_single (h : StoreOk T K lists s) (ht : t ∈ T) (hk : k ∈ K)
    (hall : ∀ g ∈ lists t, lastKey g < k) :
    (s.insert (runOf t [k])).1 = true ∧
      StoreOk T K (Function.update lists t (lists t ++ [[k]])) (s.insert (runOf t [k])).2 := by
  have hgs := (h.postings t ht).append_single hk hall
  have habove : ∀ g ∈ lists t, runOf t g < runOf t [k] := by
    have hasc := hgs.runs_ascending hK
    rw [List.map_append] at hasc
    exact fun g hg => (List.pairwise_append.mp hasc).2.2 _ (List.mem_map_of_mem hg) _ (by simp)
  have hnew : runOf t [k] ∉ s.runs := by
    intro hmem
    obtain ⟨t', ht', g, hg, hr⟩ := (h.runs _).mp hmem
    obtain rfl := runOf_inj hT ht ht' hr
    exact (habove g hg).ne hr.symm
  refine ⟨EntryStore.insert_fst hnew, h.update ht hgs (EntryStore.sorted_insert h.sorted _) ?_⟩
  intro r
  rw [EntryStore.mem_runs_insert, h.runs]
  constructor
  · rintro (rfl | ⟨t', ht', g, hg, rfl⟩)
    · exact .inl ⟨[k], by simp, rfl⟩
    · by_cases hne : t' = t
      · subst hne
        exact .inl ⟨g, by simp [hg], rfl⟩
      · exact .inr ⟨t', ht', hne, g, hg, rfl⟩
  · rintro (⟨g, hg, rfl⟩ | ⟨t', ht', -, g, hg, rfl⟩)
    · rcases List.mem_append.mp hg with hg | hg
      · exact .inr ⟨t, ht, g, hg, rfl⟩
      · exact .inl (by rw [List.mem_singleton.mp hg])
    · exact .inr ⟨t', ht', g, hg, rfl⟩

include hT hK hne hlen

theorem StoreOk.ginAppend (h : StoreOk T K lists s) (ht : t ∈ T) (hk : k ∈ K)
    (hall : ∀ g ∈ lists t, lastKey g < k) :
    ∃ gs s', ginAppend s t k = .ok (true, s') ∧ StoreOk T K (Function.update lists t gs) s' ∧
      gs.flatten = (lists t).flatten ++ [k] := by
  have hgs := h.postings t ht
  have hsingle : encodeRun t [k] = .ok (runOf t [k]) := encodeRun_ok t (by simp) (show codedBound [] < 65536 by decide)
  obtain ⟨hnew, hstore⟩ := h.insert_single hT hK ht hk hall
  have hfresh : ∃ gs s', Except.ok (s.insert (runOf t [k])) = (.ok (true, s') : Except Fault _) ∧
      StoreOk T K (Function.update lists t gs) s' ∧ gs.flatten = (lists t).flatten ++ [k] :=
    ⟨_, _, by rw [← hnew], hstore, by simp⟩
  rw [Gin.ginAppend, h.runBefore_eq hT hK ht hk hall]
  by_cases hnil : lists t = []
  · simp only [hnil, List.getLast?_nil, Option.map_none, bind, Except.bind, hsingle]
    simpa only [hnil] using hfresh
  · obtain ⟨L, g, hcut⟩ : ∃ L g, lists t = L ++ [g] :=
      ⟨_, _, (List.dropLast_append_getLast hnil).symm⟩
    have hg : g ∈ lists t := by simp [hcut]
    have hok := hgs.groups g hg
    have hgrown := @encodeRun_ok t (g ++ [k]) (by simp)
      (GroupOk.codedBound_insert hlen (b := []) (by rwa [List.append_nil]) hk)
    have hlast : (lists t).getLast? = some g := by simp [hcut]
    simp only [hlast, Option.map_some, bind, Except.bind, hgs.decodeRun hne hg, hgrown]
    by_cases hfit : (runOf t (g ++ [k])).length ≤ GIN_RUN_MAX_BYTES
    · simp only [if_pos hfit]
      have hflat : (L ++ [g ++ [k]] ++ []).flatten = (lists t).flatten ++ [k] := by simp [hcut]
      have hgs' : PostingsOk K t (L ++ [g ++ [k]] ++ []) := by
        refine ⟨fun g' hg' => ?_, ?_⟩
        · rw [List.append_nil] at hg'
          rcases List.mem_append.mp hg' with hg' | hg'
          · exact hgs.groups g' (by simp [hcut, hg'])
          · obtain rfl := List.mem_singleton.mp hg'
            refine ⟨by simp, fun x hx => ?_, fun _ => hfit⟩
            rcases List.mem_append.mp hx with hx | hx
            · exact hok.mem x hx
            · exact List.mem_singleton.mp hx ▸ hk
        · have := (hgs.append_single hk hall).ascending
          rw [hflat]
          simpa using this
      exact ⟨_, _, rfl, h.replaceRun hT hK ht hcut hgs', hflat⟩
    · simp only [if_neg hfit, hsingle]
      exact hfresh

/-- `gin_insert` adds one posting, and says whether it was missing. -/
theorem StoreOk.ginInsert (h : StoreOk T K lists s) (ht : t ∈ T) (hk : k ∈ K) :
    ∃ gs s', ginInsert s t k = .ok (decide (k ∉ (lists t).flatten), s') ∧
      StoreOk T K (Function.update lists t gs) s' ∧
      ∀ x, x ∈ gs.flatten ↔ x = k ∨ x ∈ (lists t).flatten := by
  have hgs := h.postings t ht
  rcases all_or_cut (fun g => lastKey g < k) (lists t) with hall | ⟨L, g, R, hcut, hL, hg⟩
  · rw [Gin.ginInsert, h.runAtOrAfter_none hT hK ht hk hall]
    obtain ⟨gs, s', hrun, hstore, hflat⟩ := h.ginAppend hT hK hne hlen ht hk hall
    have hnew : k ∉ (lists t).flatten := fun hmem =>
      lt_irrefl k (hgs.lt_of_lastKey hall k hmem)
    refine ⟨gs, s', by simp only [hrun, hnew, not_false_eq_true, decide_true], hstore, fun x => ?_⟩
    rw [hflat]
    simp [or_comm]
  · have hle : k ≤ lastKey g := not_lt.mp hg
    have hmem : g ∈ lists t := by simp [hcut]
    obtain ⟨hbelow, habove⟩ := hgs.around_cut hcut hL hle
    have hsearch := searchKeys_cut (hgs.group_ascending hmem) k
    rw [Gin.ginInsert, h.runAtOrAfter_some hT hK ht hk hcut hL hle]
    simp only [hgs.decodeRun hne hmem, bind, Except.bind]
    cases hres : PMap.searchKeys g k with
    | ok i =>
      simp only [hres] at hsearch
      obtain ⟨a, b, hgab, -⟩ := hsearch
      have hin : k ∈ (lists t).flatten := by simp [hcut, hgab]
      refine ⟨lists t, s, by simp [hin], by simpa using h, fun x => ?_⟩
      exact ⟨.inr, fun hx => hx.elim (fun hx => hx ▸ hin) id⟩
    | error i =>
      simp only [hres] at hsearch
      obtain ⟨a, b, hgab, hins, ha, hb⟩ := hsearch
      have hok := hgs.groups g hmem
      have hnew : k ∉ (lists t).flatten :=
        hgs.not_mem_cut (hgab ▸ hcut) hL (hgab ▸ hle) ha hb
      have hbound : codedBound (a ++ k :: b).dropLast < 65536 := GroupOk.codedBound_insert hlen (hgab ▸ hok) hk
      have hmemK : ∀ x ∈ a ++ k :: b, x ∈ K := by
        intro x hx
        rcases List.mem_append.mp hx with hx | hx
        · exact hok.mem x (by simp [hgab, hx])
        · rcases List.mem_cons.mp hx with rfl | hx
          · exact hk
          · exact hok.mem x (by simp [hgab, hx])
      obtain ⟨new, hsplit, hflat, hnewOk⟩ := splitRuns_ok t (a ++ k :: b) (by simp) hbound hmemK
      have hflat' : (L ++ new ++ R).flatten = (L.flatten ++ a) ++ k :: (b ++ R.flatten) := by
        simp [hflat]
      have hold : (lists t).flatten = (L.flatten ++ a) ++ (b ++ R.flatten) := by
        simp [hcut, hgab]
      have hasc := hgs.ascending
      rw [hold, List.pairwise_append] at hasc
      obtain ⟨hleft, hright, hcross⟩ := hasc
      have hgs' : PostingsOk K t (L ++ new ++ R) := by
        refine (hcut ▸ hgs).replace hnewOk ?_
        rw [hflat']
        refine List.pairwise_append.mpr ⟨hleft, List.pairwise_cons.mpr ⟨fun x hx => ?_, hright⟩, ?_⟩
        · exact (List.mem_append.mp hx).elim (hb x) (habove x)
        · intro x hx y hy
          rcases List.mem_cons.mp hy with rfl | hy
          · exact (List.mem_append.mp hx).elim (hbelow x) (ha x)
          · exact hcross x hx y hy
      refine ⟨_, _, by simp only [hins, hsplit, hnew, not_false_eq_true, decide_true],
        h.replaceRun hT hK ht hcut hgs', fun x => ?_⟩
      rw [hflat', hold]
      simp only [List.mem_append, List.mem_cons]
      tauto

omit hlen in
/-- `gin_remove` takes one posting away, and says whether it was there. -/
theorem StoreOk.ginRemove (h : StoreOk T K lists s) (ht : t ∈ T) (hk : k ∈ K) :
    ∃ gs s', ginRemove s t k = .ok (decide (k ∈ (lists t).flatten), s') ∧
      StoreOk T K (Function.update lists t gs) s' ∧
      ∀ x, x ∈ gs.flatten ↔ x ≠ k ∧ x ∈ (lists t).flatten := by
  have hgs := h.postings t ht
  have habsent : k ∉ (lists t).flatten →
      ∃ gs s', (Except.ok (false, s) : Except Fault _) = .ok (decide (k ∈ (lists t).flatten), s') ∧
        StoreOk T K (Function.update lists t gs) s' ∧
        ∀ x, x ∈ gs.flatten ↔ x ≠ k ∧ x ∈ (lists t).flatten := by
    intro hnew
    refine ⟨lists t, s, by simp [hnew], by simpa using h, fun x => ?_⟩
    exact ⟨fun hx => ⟨fun hxk => hnew (hxk ▸ hx), hx⟩, And.right⟩
  rcases all_or_cut (fun g => lastKey g < k) (lists t) with hall | ⟨L, g, R, hcut, hL, hg⟩
  · rw [Gin.ginRemove, h.runAtOrAfter_none hT hK ht hk hall]
    exact habsent fun hmem => lt_irrefl k (hgs.lt_of_lastKey hall k hmem)
  · have hle : k ≤ lastKey g := not_lt.mp hg
    have hmem : g ∈ lists t := by simp [hcut]
    obtain ⟨hbelow, habove⟩ := hgs.around_cut hcut hL hle
    have hsearch := searchKeys_cut (hgs.group_ascending hmem) k
    rw [Gin.ginRemove, h.runAtOrAfter_some hT hK ht hk hcut hL hle]
    simp only [hgs.decodeRun hne hmem, bind, Except.bind]
    cases hres : PMap.searchKeys g k with
    | error i =>
      simp only [hres] at hsearch
      obtain ⟨a, b, hgab, -, ha, hb⟩ := hsearch
      exact habsent (hgs.not_mem_cut (hgab ▸ hcut) hL (hgab ▸ hle) ha hb)
    | ok i =>
      simp only [hres] at hsearch
      obtain ⟨a, b, hgab, herase⟩ := hsearch
      have hok := hgs.groups g hmem
      have hin : k ∈ (lists t).flatten := by simp [hcut, hgab]
      have hold : (lists t).flatten = (L.flatten ++ a) ++ k :: (b ++ R.flatten) := by
        simp [hcut, hgab]
      have hasc := hgs.ascending
      rw [hold] at hasc
      obtain ⟨new, hruns, hflat, hnewOk⟩ : ∃ new : List (List Bytes),
          (if (a ++ b).isEmpty then .ok [] else splitRuns t (a ++ b)) =
            (.ok (new.map (runOf t)) : Except Fault _) ∧
          new.flatten = a ++ b ∧ ∀ g ∈ new, GroupOk K t g := by
        by_cases hempty : a ++ b = []
        · exact ⟨[], by simp [hempty], by simp [hempty], by simp⟩
        · have hsub : (a ++ b).Sublist g := hgab ▸ (List.sublist_cons_self k b).append_left a
          have hle := codedBound_sublist (dropLast_sublist_dropLast hsub)
          obtain ⟨new, hsplit, hflat, hnewOk⟩ := splitRuns_ok t (a ++ b) hempty
            ((hle.trans hok.codedBound_le).trans_lt (by decide))
            (fun x hx => hok.mem x (hsub.subset hx))
          refine ⟨new, ?_, hflat, hnewOk⟩
          rw [if_neg (by simpa using hempty), hsplit]
      have hflat' : (L ++ new ++ R).flatten = (L.flatten ++ a) ++ (b ++ R.flatten) := by
        simp [hflat]
      have hgs' : PostingsOk K t (L ++ new ++ R) := by
        refine (hcut ▸ hgs).replace hnewOk ?_
        rw [hflat']
        exact hasc.sublist ((List.sublist_cons_self k _).append_left _)
      have hnotMem : k ∉ (L.flatten ++ a) ++ (b ++ R.flatten) := by
        obtain ⟨-, hright, hcross⟩ := List.pairwise_append.mp hasc
        intro hx
        rcases List.mem_append.mp hx with hx | hx
        · exact lt_irrefl k (hcross k hx k List.mem_cons_self)
        · exact lt_irrefl k ((List.pairwise_cons.mp hright).1 k hx)
      refine ⟨_, _, ?_, h.replaceRun hT hK ht hcut hgs', fun x => ?_⟩
      · simp only [herase, hin, decide_true]
        by_cases hempty : (a ++ b).isEmpty
        · rw [if_pos hempty] at hruns ⊢
          rw [← Except.ok.inj hruns]
        · rw [if_neg hempty] at hruns ⊢
          simp only [hruns]
      · rw [hflat', hold]
        by_cases hx : x = k
        · rw [hx]
          exact iff_of_false hnotMem fun hk => hk.1 rfl
        · simp only [List.mem_append, List.mem_cons, hx, ne_eq, not_false_eq_true, true_and, false_or]

end Edit

/-- The runs of a term, decoded in the order a scan meets them (`access_path.rs:490-498`). -/
def EntryStore.readRuns (s : EntryStore) (term : Bytes) : Except Fault (List (List Bytes)) :=
  (s.scan (termBound term)).mapM (decodeRun term.length)

/-- The loop of `index_build_insert` over one term's runs (`access_encode.rs:5200-5204`); a run that
    is there already is corruption. -/
def insertRuns (s : EntryStore) : List Bytes → Except Fault EntryStore
  | [] => .ok s
  | run :: runs => if (s.insert run).1 then insertRuns (s.insert run).2 runs else .error .corrupt

/-- `index_build_insert` (`access_encode.rs:5176-5208`) over the terms and their posting lists. -/
def indexBuildInsert (s : EntryStore) : List (Bytes × List Bytes) → Except Fault EntryStore
  | [] => .ok s
  | (term, keys) :: lists => do
    let runs ← packRuns term keys
    let s ← insertRuns s runs
    indexBuildInsert s lists

/-- A call on an entry store. -/
inductive Edit where
  | insert (term key : Bytes)
  | remove (term key : Bytes)

/-- The posting a call is about. -/
def Edit.posting : Edit → Bytes × Bytes
  | .insert term key => (term, key)
  | .remove term key => (term, key)

/-- The call. -/
def Edit.run (s : EntryStore) : Edit → Except Fault (Bool × EntryStore)
  | .insert term key => ginInsert s term key
  | .remove term key => ginRemove s term key

/-- What the call does to a set of postings. -/
def Edit.apply (P : Finset (Bytes × Bytes)) : Edit → Finset (Bytes × Bytes)
  | .insert term key => Insert.insert (term, key) P
  | .remove term key => P.erase (term, key)

/-- The calls in turn: what each returned, and the store after the last. -/
def runEdits (s : EntryStore) : List Edit → Except Fault (List Bool × EntryStore)
  | [] => .ok ([], s)
  | e :: es => do
    let (out, s) ← e.run s
    let (outs, s) ← runEdits s es
    .ok (out :: outs, s)

/-- The set of postings after the calls. -/
def applyEdits (P : Finset (Bytes × Bytes)) (es : List Edit) : Finset (Bytes × Bytes) :=
  es.foldl Edit.apply P

/-- Which of the calls change the set of postings. -/
def changes (P : Finset (Bytes × Bytes)) : List Edit → List Bool
  | [] => []
  | e :: es => decide (e.apply P ≠ P) :: changes (e.apply P) es

/-- The postings of posting lists. -/
def postingsOf (lists : List (Bytes × List Bytes)) : Finset (Bytes × Bytes) :=
  (lists.flatMap fun l => l.2.map fun key => (l.1, key)).toFinset

section Run

variable {T K : Set Bytes}

/-- The store's posting lists hold the postings of `P`. -/
def Refines (T K : Set Bytes) (P : Finset (Bytes × Bytes)) (s : EntryStore) : Prop :=
  ∃ lists, StoreOk T K lists s ∧ ∀ t ∈ T, ∀ k, k ∈ (lists t).flatten ↔ (t, k) ∈ P

theorem Refines.update {P P' : Finset (Bytes × Bytes)} {lists : Bytes → List (List Bytes)}
    {t : Bytes} {gs : List (List Bytes)} {s : EntryStore}
    (h : ∀ t ∈ T, ∀ k, k ∈ (lists t).flatten ↔ (t, k) ∈ P)
    (hs : StoreOk T K (Function.update lists t gs) s) (hgs : ∀ k, k ∈ gs.flatten ↔ (t, k) ∈ P')
    (hother : ∀ t' k, t' ≠ t → ((t', k) ∈ P' ↔ (t', k) ∈ P)) : Refines T K P' s := by
  refine ⟨_, hs, fun t' ht' k => ?_⟩
  by_cases hne : t' = t
  · subst hne
    simpa using hgs k
  · rw [Function.update_of_ne hne, h t' ht', hother t' k hne]

variable (hT : PrefixFree T) (hK : PrefixFree K) (hne : [] ∉ K)
  (hlen : ∀ k ∈ K, k.length ≤ STORAGE_KEY_MAX)
include hT hK hne hlen

/-- A call changes the set of postings as it says. -/
theorem Refines.step {P : Finset (Bytes × Bytes)} {s : EntryStore} (h : Refines T K P s) (e : Edit)
    (ht : e.posting.1 ∈ T) (hk : e.posting.2 ∈ K) :
    ∃ s', e.run s = .ok (decide (e.apply P ≠ P), s') ∧ Refines T K (e.apply P) s' := by
  obtain ⟨lists, hs, hP⟩ := h
  cases e with
  | insert t k =>
    obtain ⟨gs, s', hrun, hs', hgs⟩ := hs.ginInsert hT hK hne hlen (t := t) (k := k) ht hk
    have hchange : k ∉ (lists t).flatten ↔ insert (t, k) P ≠ P := by
      rw [hP t ht, ne_eq, Finset.insert_eq_self]
    refine ⟨s', hrun.trans (congrArg (fun b => Except.ok (b, s')) (decide_eq_decide.mpr hchange)), ?_⟩
    refine Refines.update hP hs' (fun x => ?_) fun t' x hne => ?_
    · rw [hgs, hP t ht, Edit.apply, Finset.mem_insert, Prod.mk.injEq]
      simp
    · rw [Edit.apply, Finset.mem_insert, Prod.mk.injEq]
      simp [hne]
  | remove t k =>
    obtain ⟨gs, s', hrun, hs', hgs⟩ := hs.ginRemove hT hK hne (t := t) (k := k) ht hk
    have hchange : k ∈ (lists t).flatten ↔ P.erase (t, k) ≠ P := by
      rw [hP t ht, ne_eq, Finset.erase_eq_self, not_not]
    refine ⟨s', hrun.trans (congrArg (fun b => Except.ok (b, s')) (decide_eq_decide.mpr hchange)), ?_⟩
    refine Refines.update hP hs' (fun x => ?_) fun t' x hne => ?_
    · rw [hgs, hP t ht, Edit.apply, Finset.mem_erase]
      simp
    · rw [Edit.apply, Finset.mem_erase]
      simp [hne]

theorem Refines.run {es : List Edit} : ∀ {P : Finset (Bytes × Bytes)} {s : EntryStore},
    Refines T K P s → (∀ e ∈ es, e.posting.1 ∈ T ∧ e.posting.2 ∈ K) →
      ∃ s', runEdits s es = .ok (changes P es, s') ∧ Refines T K (applyEdits P es) s' := by
  induction es with
  | nil => intro P s h _; exact ⟨s, rfl, h⟩
  | cons e es ih =>
    intro P s h hes
    obtain ⟨ht, hk⟩ := hes e List.mem_cons_self
    obtain ⟨s₁, hstep, h₁⟩ := h.step hT hK hne hlen e ht hk
    obtain ⟨s', hrun, h'⟩ := ih h₁ fun e he => hes e (List.mem_cons_of_mem _ he)
    exact ⟨s', by simp only [runEdits, hstep, hrun, bind, Except.bind, changes], h'⟩

omit hT hK hne hlen in
/-- The loop over a term's runs stores them, if none is there yet. -/
theorem insertRuns_ok {runs : List Bytes} : ∀ {s : EntryStore}, SortedMap.Sorted s →
    runs.Nodup → (∀ r ∈ runs, r ∉ s.runs) → ∃ s', insertRuns s runs = .ok s' ∧
      SortedMap.Sorted s' ∧ ∀ r, r ∈ s'.runs ↔ r ∈ runs ∨ r ∈ s.runs := by
  induction runs with
  | nil => intro s hs _ _; exact ⟨s, rfl, hs, by simp⟩
  | cons run runs ih =>
    intro s hs hnodup hnew
    obtain ⟨hrun, hruns⟩ := List.nodup_cons.mp hnodup
    obtain ⟨s', hins, hs', hmem⟩ := ih (EntryStore.sorted_insert hs run) hruns fun r hr => by
      rw [EntryStore.mem_runs_insert, not_or]
      exact ⟨fun h => hrun (h ▸ hr), hnew r (List.mem_cons_of_mem _ hr)⟩
    refine ⟨s', ?_, hs', fun r => ?_⟩
    · rw [insertRuns, if_pos (EntryStore.insert_fst (hnew run List.mem_cons_self)), hins]
    · rw [hmem, EntryStore.mem_runs_insert, List.mem_cons]
      tauto

omit hne in
/-- The posting list of a new term. -/
theorem Refines.build {ls : List (Bytes × List Bytes)} : ∀ {P : Finset (Bytes × Bytes)}
    {s : EntryStore}, Refines T K P s →
    (∀ l ∈ ls, l.1 ∈ T ∧ l.2.Pairwise (· < ·) ∧ ∀ k ∈ l.2, k ∈ K) → (ls.map Prod.fst).Nodup →
    (∀ l ∈ ls, ∀ k, (l.1, k) ∉ P) →
      ∃ s', indexBuildInsert s ls = .ok s' ∧ Refines T K (P ∪ postingsOf ls) s' := by
  induction ls with
  | nil => intro P s h _ _ _; exact ⟨s, rfl, by simpa [postingsOf] using h⟩
  | cons l ls ih =>
    obtain ⟨t, keys⟩ := l
    intro P s h hls hnodup hnew
    obtain ⟨lists, hs, hP⟩ := h
    obtain ⟨⟨ht, hasc, hkeys⟩, hls⟩ := List.forall_mem_cons.mp hls
    obtain ⟨hterm, hnodup⟩ := List.nodup_cons.mp hnodup
    obtain ⟨hnewTerm, hnew⟩ := List.forall_mem_cons.mp hnew
    have hnil : lists t = [] := by
      refine List.eq_nil_iff_forall_not_mem.mpr fun g hg => ?_
      have hmem := ((hs.postings t ht).groups g hg).lastKey_mem
      exact hnewTerm _ ((hP t ht _).mp (List.mem_flatten.mpr ⟨g, hg, hmem⟩))
    obtain ⟨gs, hpack, hflat, hok⟩ := packRuns_ok hlen t hkeys
    have hgs : PostingsOk K t gs := ⟨hok, hflat ▸ hasc⟩
    have hfresh : ∀ r ∈ gs.map (runOf t), r ∉ s.runs := by
      intro r hr hmem
      obtain ⟨g, -, rfl⟩ := List.mem_map.mp hr
      obtain ⟨t', ht', g', hg', heq⟩ := (hs.runs _).mp hmem
      obtain rfl := runOf_inj hT ht ht' heq
      simp [hnil] at hg'
    obtain ⟨s₁, hins, hs₁, hmem⟩ := insertRuns_ok hs.sorted
      ((hgs.runs_ascending hK).imp fun h => h.ne) hfresh
    have hstore : StoreOk T K (Function.update lists t gs) s₁ := by
      refine hs.update ht hgs hs₁ fun r => ?_
      rw [hmem, hs.runs]
      refine or_congr ⟨fun hr => ?_, fun ⟨g, hg, hr⟩ => hr ▸ List.mem_map_of_mem hg⟩ ?_
      · obtain ⟨g, hg, rfl⟩ := List.mem_map.mp hr
        exact ⟨g, hg, rfl⟩
      · refine exists_congr fun t' => and_congr_right fun _ => ⟨fun h => ⟨?_, h⟩, And.right⟩
        rintro rfl
        obtain ⟨g, hg, -⟩ := h
        simp [hnil] at hg
    have hone : Refines T K (P ∪ postingsOf [(t, keys)]) s₁ := by
      refine Refines.update hP hstore (fun k => ?_) fun t' k hne => ?_
      · simp [postingsOf, hflat, hnewTerm k]
      · simp [postingsOf, hne.symm]
    obtain ⟨s', hbuild, h'⟩ := ih hone hls hnodup fun l hl k => by
      have hmem : l.1 ∈ ls.map Prod.fst := List.mem_map_of_mem hl
      have hne : l.1 ≠ t := fun heq => hterm (heq ▸ hmem)
      simp [postingsOf, hnew l hl k, hne.symm]
    refine ⟨s', by simp only [indexBuildInsert, hpack, hins, hbuild, bind, Except.bind], ?_⟩
    have hunion : P ∪ postingsOf ((t, keys) :: ls) = P ∪ postingsOf [(t, keys)] ∪ postingsOf ls := by
      ext x
      simp [postingsOf]
    rwa [hunion]

end Run

/-- What a store shows of a set of postings. A term's runs decode, in scan order, to consecutive
    pieces of its ascending postings, none empty; a run starts with its term and its last key, and is
    within the limit unless it holds one key. There are no other runs. -/
def Shows (T : Set Bytes) (P : Finset (Bytes × Bytes)) (s : EntryStore) : Prop :=
  (∀ run ∈ s.runs, ∃ term ∈ T, run ∈ s.scan (termBound term)) ∧
    ∀ term ∈ T, ∃ gs, s.readRuns term = .ok gs ∧
      gs.flatten.Pairwise (· < ·) ∧ (∀ key, key ∈ gs.flatten ↔ (term, key) ∈ P) ∧
      gs.Pairwise (fun g g' => lastKey g < lastKey g' ∧ ∀ a ∈ g, ∀ b ∈ g', a < b) ∧
      List.Forall₂ (fun run g => g ≠ [] ∧ term ++ lastKey g <+: run ∧
        (1 < g.length → run.length ≤ GIN_RUN_MAX_BYTES)) (s.scan (termBound term)) gs

theorem Refines.shows {T K : Set Bytes} (hT : PrefixFree T) (hK : PrefixFree K) (hne : [] ∉ K)
    {P : Finset (Bytes × Bytes)} {s : EntryStore} (h : Refines T K P s) : Shows T P s := by
  obtain ⟨lists, hs, hP⟩ := h
  refine ⟨fun run hrun => ?_, fun t ht => ?_⟩
  · obtain ⟨t, ht, g, hg, rfl⟩ := (hs.runs run).mp hrun
    exact ⟨t, ht, hs.scan_term hT hK ht ▸ List.mem_map_of_mem hg⟩
  · have hgs := hs.postings t ht
    refine ⟨lists t, ?_, hgs.ascending, hP t ht, ?_, ?_⟩
    · rw [EntryStore.readRuns, hs.scan_term hT hK ht, List.mapM_map]
      have hdecode : ∀ gs : List (List Bytes), (∀ g ∈ gs, g ∈ lists t) →
          gs.mapM (fun g => decodeRun t.length (runOf t g)) = .ok gs := by
        intro gs
        induction gs with
        | nil => intro _; rfl
        | cons g gs ih =>
          intro hmem
          obtain ⟨hg, hrest⟩ := List.forall_mem_cons.mp hmem
          rw [List.mapM_cons, hgs.decodeRun hne hg, ih hrest]
          rfl
      exact hdecode (lists t) fun _ => id
    · exact hgs.lastKey_ascending.and (List.pairwise_flatten.mp hgs.ascending).2
    · rw [hs.scan_term hT hK ht, List.forall₂_map_left_iff]
      refine List.forall₂_same.mpr fun g hg => ⟨(hgs.groups g hg).nonempty, ?_, (hgs.groups g hg).limit⟩
      obtain ⟨x, hx⟩ := runOf_eq t g
      exact ⟨x, by rw [hx, List.append_assoc]⟩

end Jed.Gin
