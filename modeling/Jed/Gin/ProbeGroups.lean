import Jed.Gin.Refine
import Jed.Gin.Gather
import Jed.PMap.InBound

/-!
# The two strategies of a leaf group

A group's candidates are looked up one by one, or in one scan of its runs. Both find the candidates that
the term holds, and both charge the nodes between the group's first probe key and the run that ends it.
-/

namespace Jed.Gin

open PrefixOrder PMap Window

variable {T K : Set Bytes} {P : Finset (Bytes × Bytes)} {lists : Bytes → List (List Bytes)}
  {s : EntryStore} {term : Bytes}

/-- The binary search of an ascending list finds what is in it. -/
theorem holdsKey_iff {keys : List Bytes} (h : keys.Pairwise (· < ·)) (c : Bytes) :
    holdsKey keys c = true ↔ c ∈ keys := by
  have hcut := searchKeys_cut h c
  unfold holdsKey
  cases hfound : searchKeys keys c with
  | ok i =>
    rw [hfound] at hcut
    obtain ⟨a, b, hkeys, -⟩ := hcut
    exact iff_of_true rfl (hkeys ▸ List.mem_append_right _ List.mem_cons_self)
  | error i =>
    rw [hfound] at hcut
    obtain ⟨a, b, hkeys, -, hbelow, habove⟩ := hcut
    refine iff_of_false Bool.false_ne_true fun hc => ?_
    rw [hkeys] at hc
    cases List.mem_append.mp hc with
    | inl hc => exact lt_irrefl c (hbelow c hc)
    | inr hc => exact lt_irrefl c (habove c hc)

/-- The item at a cut is the first that misses the predicate. -/
theorem getElem?_partitionPoint {α : Type} (p : α → Bool) (l : List α) :
    l[partitionPoint p l]? = l.find? fun a => !p a := by
  induction l with
  | nil => rfl
  | cons a l ih =>
    cases hp : p a with
    | true =>
      rw [partitionPoint_cons hp, List.getElem?_cons_succ, ih, List.find?_cons_of_neg (by simp [hp])]
    | false =>
      rw [partitionPoint, List.takeWhile_cons, hp, List.find?_cons_of_pos (by simp [hp])]
      rfl

theorem find?_congr {α : Type} {p q : α → Bool} {l : List α} (h : ∀ a ∈ l, p a = q a) :
    l.find? p = l.find? q := by
  induction l with
  | nil => rfl
  | cons a l ih =>
    rw [List.find?_cons, List.find?_cons, h a List.mem_cons_self,
      ih fun b hb => h b (List.mem_cons_of_mem _ hb)]

/-- The runs through the first past `last` hold what is looked for up to `last`. -/
theorem find?_runsThrough {last key : Bytes} (h : key ≤ last) (runs : List Bytes) :
    (runsThrough last runs).1.find? (fun r => !decide (r < key)) =
      runs.find? fun r => !decide (r < key) := by
  induction runs with
  | nil => rfl
  | cons run runs ih =>
    rw [runsThrough]
    by_cases hpast : last < run
    · have hrun : (!decide (run < key)) = true := by
        simpa using h.trans hpast.le
      rw [if_pos hpast]
      simp only [List.find?_cons, hrun]
    · rw [if_neg hpast, List.find?_cons, List.find?_cons, ih]

/-- The end of a scan is the first run past `last`. -/
theorem runsThrough_stop (last : Bytes) (runs : List Bytes) :
    (if (runsThrough last runs).2 then (runsThrough last runs).1.getLast? else none) =
      runs.find? fun r => decide (last < r) := by
  induction runs with
  | nil => rfl
  | cons run runs ih =>
    rw [runsThrough]
    by_cases hpast : last < run
    · rw [if_pos hpast]
      simp only [List.find?_cons, decide_eq_true hpast]
      rfl
    · rw [if_neg hpast]
      simp only [List.find?_cons, decide_eq_false hpast, ← ih]
      by_cases hsome : (runsThrough last runs).2 = true
      · rw [if_pos hsome, if_pos hsome]
        have hne : (runsThrough last runs).1 ≠ [] := by
          intro hnil
          cases runs with
          | nil => cases hsome
          | cons r rs =>
            rw [runsThrough] at hnil
            split at hnil <;> cases hnil
        rw [List.getLast?_cons, List.getLast?_eq_getLast_of_ne_nil hne]
        rfl
      · rw [if_neg hsome, if_neg hsome]

/-- What a scan from the first probe key comes by from a later one on. -/
theorem find?_scan (s : EntryStore) {term first key : Bytes} (h : first ≤ key) :
    (s.scan (boundFrom term first)).find? (fun r => !decide (r < key)) =
      s.scanFirst (boundFrom term key) := by
  rw [EntryStore.scanFirst_eq, EntryStore.scan, EntryStore.scan, List.find?_filter, List.head?_filter]
  congr 1
  funext r
  have hlo : (decide (first ≤ r) && !decide (r < key)) = decide (key ≤ r) := by
    rw [Bool.eq_iff_iff]
    simp only [Bool.and_eq_true, decide_eq_true_eq, Bool.not_eq_true', decide_eq_false_iff_not, not_lt]
    exact ⟨fun hr => hr.2, fun hr => ⟨h.trans hr, hr⟩⟩
  simp only [KeyBound.contains, boundFrom, termBound, Option.all_some, if_true, ← hlo, Bool.decide_and,
    Bool.decide_eq_true]
  exact Bool.and_right_comm _ _ _

theorem getElem?_runsThrough (s : EntryStore) {term first last c : Bytes} (hfirst : first ≤ term ++ c)
    (hlast : term ++ c ≤ last) :
    (runsThrough last (s.scan (boundFrom term first))).1[partitionPoint
      (fun r => decide (r < term ++ c))
      (runsThrough last (s.scan (boundFrom term first))).1]? = runAtOrAfter s term c := by
  rw [getElem?_partitionPoint, find?_runsThrough hlast, find?_scan s hfirst]
  rfl

/-- One scan finds what the lookups find. -/
theorem probeRuns_eq {runs group : List Bytes} (h : ∀ c ∈ group,
      runs[partitionPoint (fun r => decide (r < term ++ c)) runs]? = runAtOrAfter s term c)
    (last : Option Bytes) :
    probeRuns term runs group = (probeLookups s term group last).map Prod.snd := by
  induction group generalizing last with
  | nil => rfl
  | cons c group ih =>
    rw [probeRuns, probeLookups, h c List.mem_cons_self]
    cases runAtOrAfter s term c with
    | none => rfl
    | some run =>
      dsimp only
      rw [ih (fun d hd => h d (List.mem_cons_of_mem _ hd)) (some run)]
      cases decodeRun term.length run with
      | error e => rfl
      | ok keys =>
        cases probeLookups s term group (some run) with
        | error e => rfl
        | ok p => rfl

section Store

variable (hT : PrefixFree T) (hK : PrefixFree K) (hne : [] ∉ K)
  (hs : StoreOk T K lists s) (ht : term ∈ T)

include hT hK hne hs ht

/-- A candidate's run holds it when the term does; and without a run there is none for later ones. -/
theorem lookup_spec {c : Bytes} (hc : c ∈ K) :
    (runAtOrAfter s term c = none ∧ ∀ d, c ≤ d → d ∉ (lists term).flatten ∧
        (d ∈ K → runAtOrAfter s term d = none)) ∨
      ∃ run g, runAtOrAfter s term c = some run ∧ decodeRun term.length run = .ok g ∧
        g.Pairwise (· < ·) ∧ (c ∈ g ↔ c ∈ (lists term).flatten) := by
  have hok := hs.postings term ht
  cases all_or_cut (fun g => lastKey g < c) (lists term) with
  | inl hall =>
    refine .inl ⟨hs.runAtOrAfter_none hT hK ht hc hall, fun d hd => ⟨fun hmem => ?_, fun hdK => ?_⟩⟩
    · obtain ⟨g, hg, hdg⟩ := List.mem_flatten.mp hmem
      have hle := le_lastKey (hok.group_ascending hg) hdg
      exact lt_irrefl d ((hle.trans_lt (hall g hg)).trans_le hd)
    · exact hs.runAtOrAfter_none hT hK ht hdK fun g hg => (hall g hg).trans_le hd
  | inr hcut =>
    obtain ⟨L, g, R, hcut, hL, hg⟩ := hcut
    have hmem : g ∈ lists term := hcut ▸ List.mem_append_right _ List.mem_cons_self
    obtain ⟨hbelow, habove⟩ := hok.around_cut hcut hL (not_lt.mp hg)
    refine .inr ⟨_, g, hs.runAtOrAfter_some hT hK ht hc hcut hL (not_lt.mp hg),
      hok.decodeRun hne hmem, hok.group_ascending hmem, ?_⟩
    rw [hcut, List.flatten_append, List.flatten_cons, List.mem_append, List.mem_append]
    refine ⟨fun h => .inr (.inl h), fun h => ?_⟩
    rcases h with h | h | h
    · exact absurd (hbelow c h) (lt_irrefl c)
    · exact h
    · exact absurd (habove c h) (lt_irrefl c)

variable (hP : ∀ k, k ∈ (lists term).flatten ↔ (term, k) ∈ P)

include hP

/-- The lookups of an ascending group find the candidates that the term holds, and end with the run of
    the last candidate that has one. -/
theorem probeLookups_spec {group : List Bytes} (hgroup : group.Pairwise (· < ·))
    (hmem : ∀ c ∈ group, c ∈ K) (last : Option Bytes) :
    ∃ stop, probeLookups s term group last
        = .ok (stop, group.filter fun c => decide ((term, c) ∈ P)) ∧
      (stop = last ∨ ∃ c ∈ group, stop = runAtOrAfter s term c) ∧
      ∀ c, group.getLast? = some c → ∀ run, runAtOrAfter s term c = some run → stop = some run := by
  induction group generalizing last with
  | nil => exact ⟨last, rfl, .inl rfl, fun c hc => by cases hc⟩
  | cons c group ih =>
    obtain ⟨hbelow, hasc⟩ := List.pairwise_cons.mp hgroup
    have hrest : ∀ d ∈ group, d ∈ K := fun d hd => hmem d (List.mem_cons_of_mem _ hd)
    rw [probeLookups]
    cases lookup_spec hT hK hne hs ht (hmem c List.mem_cons_self) with
    | inl hnone =>
      obtain ⟨hrun, hlater⟩ := hnone
      have hle : ∀ d ∈ c :: group, c ≤ d := fun d hd =>
        (List.mem_cons.mp hd).elim (fun h => h ▸ le_rfl) fun h => (hbelow d h).le
      have hempty : (c :: group).filter (fun d => decide ((term, d) ∈ P)) = [] := by
        rw [List.filter_eq_nil_iff]
        intro d hd
        rw [decide_eq_true_eq, ← hP]
        exact (hlater d (hle d hd)).1
      rw [hrun, hempty]
      refine ⟨last, rfl, .inl rfl, fun d hd run hdrun => ?_⟩
      have hdmem := List.mem_of_getLast? hd
      rw [(hlater d (hle d hdmem)).2 (hmem d hdmem)] at hdrun
      cases hdrun
    | inr hsome =>
      obtain ⟨run, g, hrun, hdecode, hg, hcg⟩ := hsome
      obtain ⟨stop, hlookups, hstop, hlast⟩ := ih hasc hrest (some run)
      rw [hrun]
      dsimp only
      rw [hdecode, hlookups]
      have hfound : (if holdsKey g c = true then
            c :: group.filter (fun d => decide ((term, d) ∈ P))
          else group.filter fun d => decide ((term, d) ∈ P))
          = (c :: group).filter fun d => decide ((term, d) ∈ P) := by
        by_cases hc : (term, c) ∈ P
        · have hholds : holdsKey g c = true := (holdsKey_iff hg c).mpr (hcg.mpr ((hP c).mpr hc))
          rw [if_pos hholds, List.filter_cons, if_pos (decide_eq_true hc)]
        · have hholds : ¬holdsKey g c = true := fun h =>
            hc ((hP c).mp (hcg.mp ((holdsKey_iff hg c).mp h)))
          rw [if_neg hholds, List.filter_cons, if_neg (by simpa using hc)]
      refine ⟨stop, congrArg (fun found => Except.ok (stop, found)) hfound, ?_, fun d hd run' hrun' => ?_⟩
      · cases hstop with
        | inl h => exact .inr ⟨c, List.mem_cons_self, h.trans hrun.symm⟩
        | inr h =>
          obtain ⟨d, hd, h⟩ := h
          exact .inr ⟨d, List.mem_cons_of_mem _ hd, h⟩
      · cases hgroup : group with
        | nil =>
          rw [hgroup] at hd hlookups
          cases hd
          cases hlookups
          exact hrun.symm.trans hrun'
        | cons e rest =>
          rw [hgroup, List.getLast?_cons_cons] at hd
          exact hlast d (hgroup ▸ hd) run' hrun'

end Store

theorem height_le (istore : TreeMap Unit) (hord : istore.Routed) (b : KeyBound) :
    height istore ≤ istore.nodesIn b := by
  unfold height TreeMap.nodesIn
  cases hroot : istore.root with
  | none => exact le_rfl
  | some r => exact height_le_nodesIn b (hord r.1 r.2 hroot)

theorem nodesIn_span_mono (istore : TreeMap Unit) {lo hi hi' : Bytes} (h : hi ≤ hi') :
    istore.nodesIn (span lo hi) ≤ istore.nodesIn (span lo hi') := by
  unfold TreeMap.nodesIn
  cases istore.root with
  | none => exact le_rfl
  | some r => exact nodesIn_mono h r.2

/-- A run is longer than the probe key of what it holds. -/
theorem runOf_ne (hK : PrefixFree K) {g : List Bytes} (hg : lastKey g ∈ K) {k : Bytes} (hk : k ∈ K) :
    runOf term g ≠ term ++ k := by
  intro heq
  have hprefix : lastKey g <+: k := by
    obtain ⟨tail, htail⟩ := runOf_eq term g
    rw [htail] at heq
    exact ⟨tail, List.append_cancel_left heq⟩
  have hlen := congrArg List.length heq
  rw [← hK _ hg _ hk hprefix, runOf, runKey] at hlen
  simp only [List.length_append, lastKey, u16Bytes, List.length_cons, List.length_nil] at hlen
  omega

theorem le_lastKey_of_mem {group : List Bytes} (h : group.Pairwise (· < ·)) {d : Bytes}
    (hd : d ∈ group) (term : Bytes) : term ++ d ≤ term ++ lastKey group :=
  not_lt.mp fun hlt => not_lt.mpr (le_lastKey h hd) ((append_lt_append_left term).mp hlt)

theorem first_le {c : Bytes} {more : List Bytes} (h : (c :: more).Pairwise (· < ·)) {d : Bytes}
    (hd : d ∈ c :: more) (term : Bytes) : term ++ c ≤ term ++ d := by
  refine not_lt.mp fun hlt => not_lt.mpr ?_ ((append_lt_append_left term).mp hlt)
  cases List.mem_cons.mp hd with
  | inl heq => exact heq ▸ le_rfl
  | inr hmem => exact ((List.pairwise_cons.mp h).1 d hmem).le

/-- A run that is found for a candidate is before a key that none is found for. -/
theorem run_lt_of_none {s : EntryStore} {term d k run : Bytes} (hd : runAtOrAfter s term d = some run)
    (hk : runAtOrAfter s term k = none) : run < term ++ k := by
  obtain ⟨e, he, rfl⟩ := Option.map_eq_some_iff.mp hd
  have hin := List.find?_some he
  have hout := List.find?_eq_none.mp (Option.map_eq_none_iff.mp hk) e (List.mem_of_find?_eq_some he)
  by_contra hge
  refine hout ?_
  simp only [KeyBound.contains, termBound, Option.all_some, if_true, Bool.and_eq_true,
    decide_eq_true_eq] at hin ⊢
  exact ⟨not_lt.mp hge, hin.2⟩

section Group

variable (hT : PrefixFree T) (hK : PrefixFree K) (hne : [] ∉ K)
  {istore : TreeMap Unit} (hs : StoreOk T K lists (entryStore istore)) (ht : term ∈ T)
  (hP : ∀ k, k ∈ (lists term).flatten ↔ (term, k) ∈ P) {c : Bytes} {more : List Bytes}
  (hgroup : (c :: more).Pairwise (· < ·)) (hmem : ∀ d ∈ c :: more, d ∈ K)

theorem getLast?_eq_lastKey (c : Bytes) (more : List Bytes) :
    (c :: more).getLast? = some (lastKey (c :: more)) := by
  rw [List.getLast?_eq_getLast_of_ne_nil (List.cons_ne_nil c more), lastKey,
    List.getLast_eq_getLastD, List.getLastD_cons]

include hT hK hne hs ht hP hgroup hmem

/-- A group's scan finds the candidates that the term holds, and ends with the run of the last one. -/
theorem probeGroupScan_spec :
    probeGroupScan istore term (c :: more) (term ++ c) (term ++ lastKey (c :: more))
      = .ok (runAtOrAfter (entryStore istore) term (lastKey (c :: more)),
          (c :: more).filter fun d => decide ((term, d) ∈ P)) := by
  have hlast : lastKey (c :: more) ∈ c :: more := List.mem_of_getLast? (getLast?_eq_lastKey c more)
  obtain ⟨stop, hlookups, -, -⟩ :=
    probeLookups_spec hT hK hne hs ht hP hgroup hmem none
  have hruns := fun d (hd : d ∈ c :: more) =>
    @getElem?_runsThrough (entryStore istore) term _ _ _ (first_le hgroup hd term)
      (le_lastKey_of_mem hgroup hd term)
  have hfound := probeRuns_eq hruns none
  rw [hlookups] at hfound
  -- no run is at the last probe key, so the first past it is the first at or after it
  have hpast : ((entryStore istore).scan (boundFrom term (term ++ c))).find?
      (fun r => decide (term ++ lastKey (c :: more) < r))
        = runAtOrAfter (entryStore istore) term (lastKey (c :: more)) := by
    have hfirst := @find?_scan (entryStore istore) term _ _ (first_le hgroup hlast term)
    refine Eq.trans (find?_congr fun r hr => ?_) hfirst
    rw [boundFrom, hs.scan_atOrAfter hT hK ht (hmem c List.mem_cons_self)] at hr
    obtain ⟨g, hg, rfl⟩ := List.mem_map.mp hr
    have hg := (hs.postings term ht).lastKey_mem (List.mem_of_mem_filter hg)
    have hrun := @runOf_ne _ term hK _ hg _ (hmem _ hlast)
    rw [Bool.eq_iff_iff, decide_eq_true_eq, Bool.not_eq_true', decide_eq_false_iff_not, not_lt]
    exact ⟨le_of_lt, fun hle => lt_of_le_of_ne hle hrun.symm⟩
  rw [← hpast, ← runsThrough_stop]
  show (probeRuns term (runsThrough _ _).1 (c :: more) >>= fun found => _) = _
  rw [hfound]
  rfl

end Group

/-- The strategies of a group find the same candidates, those that the term holds; and where the probe
    keys fall in one leaf, as they do in the groups of a gather, they charge the same. -/
theorem group_strategies_agree (hT : PrefixFree T) (hK : PrefixFree K) (hne : [] ∉ K)
    {istore : TreeMap Unit} (hord : istore.Routed)
    (h : Refines T K P (entryStore istore)) (ht : term ∈ T) {c : Bytes} {more : List Bytes}
    (hgroup : (c :: more).Pairwise (· < ·)) (hmem : ∀ d ∈ c :: more, d ∈ K) :
    ∃ stop stop' found, probeGroupLookups istore term (c :: more) = .ok (stop, found) ∧
      probeGroupScan istore term (c :: more) (term ++ c) (term ++ lastKey (c :: more))
        = .ok (stop', found) ∧
      found = (c :: more).filter (fun d => decide ((term, d) ∈ P)) ∧
      ((∀ d ∈ more, istore.nodesIn (span (term ++ c) (term ++ d)) = height istore) →
        istore.nodesIn (span (term ++ c) (stop.getD (term ++ lastKey (c :: more)))) =
          istore.nodesIn (span (term ++ c) (stop'.getD (term ++ lastKey (c :: more))))) := by
  obtain ⟨lists, hs, hP⟩ := h
  have hlast := getLast?_eq_lastKey c more
  obtain ⟨stop, hlookups, hstop, hend⟩ :=
    probeLookups_spec hT hK hne hs ht (hP term ht) hgroup hmem none
  refine ⟨stop, _, _, hlookups, probeGroupScan_spec hT hK hne hs ht (hP term ht) hgroup hmem, rfl,
    fun hleaf => ?_⟩
  cases hrun : runAtOrAfter (entryStore istore) term (lastKey (c :: more)) with
  | some run => rw [hend _ hlast run hrun]
  | none =>
    cases hstopRun : stop with
    | none => rfl
    | some run =>
      obtain ⟨d, hd, hdrun⟩ := hstop.resolve_left (by rw [hstopRun]; exact Option.some_ne_none run)
      have hdrun : runAtOrAfter (entryStore istore) term d = some run := hdrun.symm.trans hstopRun
      have hlt : run < term ++ lastKey (c :: more) := run_lt_of_none hdrun hrun
      have hmore : lastKey (c :: more) ∈ more := by
        cases List.mem_cons.mp (List.mem_of_getLast? hlast) with
        | inr h => exact h
        | inl heq =>
          have hle := le_lastKey hgroup hd
          have hcd := first_le hgroup hd []
          rw [heq] at hle hrun
          rw [le_antisymm hle hcd, hrun] at hdrun
          cases hdrun
      have hwhole := hleaf _ hmore
      have hpart := @nodesIn_span_mono istore (term ++ c) _ _ hlt.le
      have hheight := height_le istore hord (span (term ++ c) run)
      show istore.nodesIn (span (term ++ c) run) = istore.nodesIn (span (term ++ c) (term ++ lastKey _))
      omega

/-- A leaf with the runs of two terms. -/
def twoTerms : TreeMap Unit where
  root := some ⟨0, ([([1, 20, 0, 1, 10, 0, 3], ⟨(), 0⟩), ([2, 20, 0, 0], ⟨(), 0⟩)] : Leaf Unit)⟩
  count := 2

theorem twoTerms_routed : twoTerms.Routed := by
  intro n t ht
  cases ht
  refine ⟨List.pairwise_pair.mpr (by decide), fun e _ => ⟨fun _ ha => (by cases ha), fun _ ha => (by cases ha)⟩⟩

theorem singletons_prefixFree : PrefixFree {k : Bytes | k.length = 1} := fun _ ha _ hb h =>
  h.eq_of_length (ha.trans hb.symm)

theorem singletons_short : ∀ k ∈ {k : Bytes | k.length = 1}, k.length ≤ STORAGE_KEY_MAX := by
  intro k hk
  rw [show k.length = 1 from hk]
  decide

theorem twoTerms_refines : Refines {t : Bytes | t.length = 1} {k : Bytes | k.length = 1}
    (postingsOf [([1], [[10], [20]]), ([2], [[20]])]) (entryStore twoTerms) := by
  have hempty : Refines {t : Bytes | t.length = 1} {k : Bytes | k.length = 1} ∅ [] :=
    ⟨fun _ => [], ⟨List.Pairwise.nil, by simp [EntryStore.runs], fun _ _ => ⟨by simp, by simp⟩⟩,
      by simp⟩
  obtain ⟨s, hbuild, hs⟩ := @Refines.build _ _ singletons_prefixFree singletons_prefixFree
    singletons_short [([1], [[10], [20]]), ([2], [[20]])] _ _ hempty (by decide) (by decide) (by simp)
  have hstore : indexBuildInsert [] [([1], [[10], [20]]), ([2], [[20]])] = .ok (entryStore twoTerms) := by
    decide +kernel
  cases hstore.symm.trans hbuild
  rwa [Finset.empty_union] at hs

/-- Of three candidates, the run of a term holds two, by either strategy. -/
theorem group_strategies_agree_twoTerms : ∃ stop stop' found,
    probeGroupLookups twoTerms [1] [[10], [15], [20]] = .ok (stop, found) ∧
      probeGroupScan twoTerms [1] [[10], [15], [20]] [1, 10] [1, 20] = .ok (stop', found) ∧
      twoTerms.nodesIn (span [1, 10] (stop.getD [1, 20])) =
        twoTerms.nodesIn (span [1, 10] (stop'.getD [1, 20])) := by
  obtain ⟨stop, stop', found, hlookups, hscan, -, hcharge⟩ :=
    @group_strategies_agree _ _ _ [1] singletons_prefixFree singletons_prefixFree (by simp)
      twoTerms twoTerms_routed twoTerms_refines rfl [10] [[15], [20]] (by decide)
      (by simp)
  exact ⟨stop, stop', found, hlookups, hscan, hcharge (by decide)⟩

/-- Two leaves, each with a run of one term. -/
def twoRuns : TreeMap Unit where
  root := some ⟨1, (⟨[[1, 20, 0, 0]], [([([1, 10, 0, 0], ⟨(), 0⟩)] : Leaf Unit), ([([1, 20, 0, 0], ⟨(), 0⟩)] :
    Leaf Unit)]⟩ : Inner (Leaf Unit))⟩
  count := 2

theorem twoRuns_refines : Refines {[1]} {k : Bytes | k.length = 1} (postingsOf [([1], [[10], [20]])])
    (entryStore twoRuns) := by
  refine ⟨fun _ => [[[10]], [[20]]], ⟨?_, fun r => ?_, ?_⟩, ?_⟩
  · exact List.pairwise_pair.mpr (by decide)
  · rw [show (entryStore twoRuns).runs = [[1, 10, 0, 0], [1, 20, 0, 0]] from rfl, List.mem_pair]
    simp [show runOf [1] [[10]] = [1, 10, 0, 0] by decide, show runOf [1] [[20]] = [1, 20, 0, 0] by decide]
  · rintro t rfl
    refine ⟨fun g hg => ?_, by decide⟩
    rcases List.mem_pair.mp hg with rfl | rfl <;> exact ⟨by simp, by simp, by simp⟩
  · rintro t rfl k
    simp [postingsOf]

/-- Where the candidates are of two leaves the charges differ: no run is at or after the last candidate, and
    the lookups end at the first run, which is the first candidate's. -/
theorem group_strategies_charge_apart :
    Refines {[1]} {k : Bytes | k.length = 1} (postingsOf [([1], [[10], [20]])]) (entryStore twoRuns) ∧
      twoRuns.Routed ∧
      probeGroupLookups twoRuns [1] [[5], [30]] = .ok (some [1, 10, 0, 0], []) ∧
      probeGroupScan twoRuns [1] [[5], [30]] [1, 5] [1, 30] = .ok (none, []) ∧
      twoRuns.nodesIn (span [1, 5] [1, 10, 0, 0]) = 2 ∧ twoRuns.nodesIn (span [1, 5] [1, 30]) = 3 := by
  refine ⟨twoRuns_refines, ?_, by decide +kernel, by decide +kernel, by decide +kernel, by decide +kernel⟩
  rintro n t ⟨⟩
  refine ⟨KeyChain.below_none_left _, ⟨List.pairwise_singleton _ _, fun e he => ?_⟩,
    KeyChain.below_none_right _, ⟨List.pairwise_singleton _ _, fun e he => ?_⟩⟩
  · rw [List.mem_singleton.mp he]
    exact ⟨fun _ ha => (by cases ha), fun c hc => (by cases hc; decide)⟩
  · rw [List.mem_singleton.mp he]
    exact ⟨fun c hc => (by cases hc; decide), fun _ ha => (by cases ha)⟩

end Jed.Gin
