import Jed.Lib.PrefixOrder
import Jed.Gin.Runs

/-!
# The entry store as posting lists

A store over prefix-free terms and prefix-free storage keys holds, for each term, consecutive groups
of its ascending keys, one run a group. Byte order of `term ‖ last ‖ body ‖ len(body)` is the order of
the terms and then of the last keys, so a scan within a term's bound meets the term's groups in order.
-/

namespace Jed.Gin

open PrefixOrder

/-- The keys a store holds. -/
def EntryStore.runs (s : EntryStore) : List Bytes := s.map Prod.fst

/-- The keys a `scan_range` visits. -/
def EntryStore.scan (s : EntryStore) (b : KeyBound) : List Bytes := s.runs.filter b.contains

theorem EntryStore.scanFirst_eq (s : EntryStore) (b : KeyBound) :
    s.scanFirst b = (s.scan b).head? := by
  rw [scanFirst, scan, runs, List.filter_map, List.head?_map, List.head?_filter]
  rfl

theorem EntryStore.scanLast_eq (s : EntryStore) (b : KeyBound) :
    s.scanLast b = (s.scan b).getLast? := by
  rw [scanLast, scan, runs, List.filter_map, List.getLast?_map, List.getLast?_eq_head?_reverse,
    ← List.filter_reverse, List.head?_filter]
  rfl

theorem EntryStore.sorted_iff {s : EntryStore} :
    SortedMap.Sorted s ↔ s.runs.Pairwise (· < ·) := List.pairwise_map.symm

theorem EntryStore.sorted_insert {s : EntryStore} (hs : SortedMap.Sorted s) (run : Bytes) :
    SortedMap.Sorted (s.insert run).2 := by
  unfold insert
  split
  · exact hs
  · exact hs.insert _ _

variable {run r : Bytes}

theorem EntryStore.mem_runs_insert {s : EntryStore} :
    r ∈ (s.insert run).2.runs ↔ r = run ∨ r ∈ s.runs := by
  unfold insert
  split
  · rename_i h
    exact ⟨.inr, fun h' => h'.elim (fun h' => h' ▸ SortedMap.get_isSome_iff.mp h) id⟩
  · unfold runs
    rw [← SortedMap.get_isSome_iff, ← SortedMap.get_isSome_iff, SortedMap.get_insert]
    by_cases h : r = run <;> simp [h]

theorem EntryStore.insert_fst {s : EntryStore} (h : run ∉ s.runs) :
    (s.insert run).1 = true := by
  rw [insert, if_neg fun h' => h (SortedMap.get_isSome_iff.mp h')]

theorem EntryStore.mem_runs_remove {s : EntryStore} :
    r ∈ (s.remove run).runs ↔ r ≠ run ∧ r ∈ s.runs := by
  unfold remove runs
  rw [← SortedMap.get_isSome_iff, ← SortedMap.get_isSome_iff, SortedMap.get_erase]
  by_cases h : r = run <;> simp [h]

/-- The loop that stores runs (`gin_runs.rs:234-236`). -/
theorem EntryStore.insertAll_spec (runs : List Bytes) : ∀ {s : EntryStore}, SortedMap.Sorted s →
    SortedMap.Sorted (runs.foldl (fun (s : EntryStore) run => (s.insert run).2) s) ∧
      ∀ r, r ∈ EntryStore.runs (runs.foldl (fun (s : EntryStore) run => (s.insert run).2) s) ↔
        r ∈ runs ∨ r ∈ s.runs := by
  induction runs with
  | nil => intro s hs; exact ⟨hs, by simp⟩
  | cons run runs ih =>
    intro s hs
    obtain ⟨hsorted, hmem⟩ := ih (sorted_insert hs run)
    refine ⟨hsorted, fun r => ?_⟩
    rw [List.foldl_cons, hmem, mem_runs_insert, List.mem_cons]
    tauto

theorem replaceRun_spec {s : EntryStore} (hs : SortedMap.Sorted s) (old : Bytes)
    (runs : List Bytes) : SortedMap.Sorted (replaceRun s old runs) ∧
      ∀ r, r ∈ (replaceRun s old runs).runs ↔ r ∈ runs ∨ (r ≠ old ∧ r ∈ s.runs) := by
  obtain ⟨hsorted, hmem⟩ := EntryStore.insertAll_spec runs (s := s.remove old) (hs.erase old)
  exact ⟨hsorted, fun r => by rw [replaceRun, hmem, EntryStore.mem_runs_remove]⟩

theorem le_max_byte (y : UInt8) : y ≤ 0xFF := by
  rw [UInt8.le_iff_toNat_le]
  have := y.toNat_lt
  simpa using Nat.le_of_lt_succ this

/-- Nothing but its extensions follows a string of `0xFF`. -/
theorem prefix_of_le_max {n : Nat} : ∀ {s : Bytes}, List.replicate n 0xFF ≤ s →
    List.replicate n 0xFF <+: s := by
  induction n with
  | zero => intro s _; exact List.nil_prefix
  | succ n ih =>
    intro s h
    rw [List.replicate_succ] at h ⊢
    cases s with
    | nil => exact absurd (List.nil_lt_cons _ _) (not_lt.mpr h)
    | cons y s =>
      rw [← not_lt, List.cons_lt_cons_iff, not_or] at h
      have hy : y = 0xFF := le_antisymm (le_max_byte y) (not_lt.mp h.1)
      subst hy
      exact (List.prefix_cons_inj _).mpr (ih (not_lt.mp fun h' => h.2 ⟨rfl, h'⟩))

/-- The successor raises the last byte that can be raised, behind a common front. -/
theorem successorRev_spec (r : Bytes) :
    (successorRev r = none ∧ r = List.replicate r.length 0xFF) ∨
      ∃ n x rest, r = List.replicate n 0xFF ++ x :: rest ∧ x ≠ 0xFF ∧
        successorRev r = some ((x + 1) :: rest) := by
  induction r with
  | nil => exact .inl ⟨rfl, rfl⟩
  | cons last rest ih =>
    by_cases h : last = 0xFF
    · subst h
      rw [successorRev, if_neg (by decide)]
      rcases ih with ⟨hnone, hall⟩ | ⟨n, x, rest', hr, hx, hsome⟩
      · refine .inl ⟨hnone, ?_⟩
        rw [List.length_cons, List.replicate_succ, ← hall]
      · exact .inr ⟨n + 1, x, rest', by rw [hr, List.replicate_succ, List.cons_append], hx, hsome⟩
    · exact .inr ⟨0, last, rest, rfl, h, if_pos h⟩

theorem prefixSuccessor_spec (p : Bytes) :
    (prefixSuccessor p = none ∧ p = List.replicate p.length 0xFF) ∨
      ∃ a x n, p = a ++ x :: List.replicate n 0xFF ∧ x ≠ 0xFF ∧
        prefixSuccessor p = some (a ++ [x + 1]) := by
  rcases successorRev_spec p.reverse with ⟨hnone, hall⟩ | ⟨n, x, rest, hr, hx, hsome⟩
  · refine .inl ⟨by rw [prefixSuccessor, hnone]; rfl, ?_⟩
    have := congrArg List.reverse hall
    simpa using this
  · refine .inr ⟨rest.reverse, x, n, ?_, hx, ?_⟩
    · have := congrArg List.reverse hr
      simpa using this
    · rw [prefixSuccessor, hsome]
      simp

theorem succ_byte {x y : UInt8} (hx : x ≠ 0xFF) : (x < x + 1) ∧ (y < x + 1 → y ≤ x) := by
  have hne : x.toNat ≠ 255 := fun h => hx (UInt8.toNat_inj.mp h)
  have hlt := x.toNat_lt
  have hsucc : (x + 1).toNat = x.toNat + 1 := by
    rw [UInt8.toNat_add]
    exact Nat.mod_eq_of_lt (by simp; omega)
  simp only [UInt8.lt_iff_toNat_lt, UInt8.le_iff_toNat_le, hsucc]
  omega

/-- Below the successor of a term, what is not below the term extends it. -/
theorem prefixSuccessor_iff {term s : Bytes} (h : term ≤ s) :
    (prefixSuccessor term).all (fun hi => s < hi) ↔ term <+: s := by
  rcases prefixSuccessor_spec term with ⟨hnone, hall⟩ | ⟨a, x, n, hterm, hx, hsome⟩
  · simp only [hnone, Option.all_none, true_iff]
    rw [hall] at h ⊢
    exact prefix_of_le_max h
  · simp only [hsome, Option.all_some, decide_eq_true_eq]
    obtain ⟨hlt, hle⟩ := @succ_byte x x hx
    constructor
    · intro hs
      have ha : a <+: s := prefix_of_le_of_lt ((hterm ▸ le_append a _).trans h) hs
      obtain ⟨s, rfl⟩ := ha
      rw [append_lt_append_left] at hs
      rw [hterm, ← not_lt, append_lt_append_left, not_lt] at h
      cases s with
      | nil => exact absurd (List.nil_lt_cons _ _) (not_lt.mpr h)
      | cons y s =>
        rw [← not_lt, List.cons_lt_cons_iff, not_or] at h
        have hy : y < x + 1 := by
          rcases List.cons_lt_cons_iff.mp hs with hy | ⟨-, hnil⟩
          · exact hy
          · exact absurd hnil (List.not_lt_nil _)
        obtain rfl : y = x := le_antisymm ((succ_byte hx).2 hy) (not_lt.mp h.1)
        rw [hterm, List.prefix_append_right_inj, List.prefix_cons_inj]
        exact prefix_of_le_max (not_lt.mp fun h' => h.2 ⟨rfl, h'⟩)
    · rintro ⟨s, rfl⟩
      rw [hterm, List.append_assoc, append_lt_append_left, List.cons_append, List.cons_lt_cons_iff]
      exact .inl hlt

/-- The last key of a group. -/
def lastKey (g : List Bytes) : Bytes := g.getLastD []

theorem runOf_eq (term : Bytes) (g : List Bytes) : ∃ tail, runOf term g = term ++ (lastKey g ++ tail) :=
  ⟨_, by rw [runOf, runKey, lastKey, List.append_assoc, List.append_assoc]⟩

theorem GroupOk.lastKey_mem {K : Set Bytes} {term : Bytes} {g : List Bytes}
    (h : GroupOk K term g) : lastKey g ∈ g := by
  obtain ⟨rest, last, rfl⟩ := exists_append_last h.nonempty
  simp [lastKey]

theorem le_lastKey {g : List Bytes} (h : g.Pairwise (· < ·)) {k : Bytes} (hk : k ∈ g) :
    k ≤ lastKey g := by
  obtain ⟨rest, last, rfl⟩ := exists_append_last (List.ne_nil_of_mem hk)
  have hlast : lastKey (rest ++ [last]) = last := by simp [lastKey]
  rw [hlast]
  rcases List.mem_append.mp hk with hk | hk
  · exact ((List.pairwise_append.mp h).2.2 k hk last (by simp)).le
  · exact (List.mem_singleton.mp hk).le

section Order

variable {T K : Set Bytes}

variable {g g' : List Bytes}

theorem runOf_lt_iff (hK : PrefixFree K) (t : Bytes) (hg : lastKey g ∈ K)
    (hg' : lastKey g' ∈ K) (hne : lastKey g ≠ lastKey g') :
    runOf t g < runOf t g' ↔ lastKey g < lastKey g' := by
  obtain ⟨x, hx⟩ := runOf_eq t g
  obtain ⟨y, hy⟩ := runOf_eq t g'
  rw [hx, hy, append_lt_append_left]
  exact hK.append_lt_iff hg hg' hne x y

theorem le_runOf_iff (hK : PrefixFree K) (t : Bytes) {k : Bytes} (hk : k ∈ K)
    (hg : lastKey g ∈ K) : t ++ k ≤ runOf t g ↔ k ≤ lastKey g := by
  obtain ⟨x, hx⟩ := runOf_eq t g
  rw [hx, ← not_lt, ← not_lt, append_lt_append_left, not_iff_not]
  by_cases hne : lastKey g = k
  · rw [hne]
    exact iff_of_false (not_lt.mpr (le_append k x)) (lt_irrefl k)
  · have := hK.append_lt_iff hg hk hne x []
    rwa [List.append_nil] at this

variable {t' : Bytes}

theorem term_eq_of_prefix (hT : PrefixFree T) {t : Bytes} (ht : t ∈ T) (ht' : t' ∈ T)
    (h : t <+: runOf t' g) : t' = t := by
  obtain ⟨x, hx⟩ := runOf_eq t' g
  exact hT.eq_of_prefix ht' ht ⟨_, hx.symm⟩ h

/-- A term's posting list, cut into groups. -/
structure PostingsOk (K : Set Bytes) (term : Bytes) (gs : List (List Bytes)) : Prop where
  groups : ∀ g ∈ gs, GroupOk K term g
  ascending : gs.flatten.Pairwise (· < ·)

/-- The store holds one run for each group of each term's posting list. -/
structure StoreOk (T K : Set Bytes) (lists : Bytes → List (List Bytes)) (s : EntryStore) : Prop where
  sorted : SortedMap.Sorted s
  runs : ∀ r, r ∈ s.runs ↔ ∃ t ∈ T, ∃ g ∈ lists t, r = runOf t g
  postings : ∀ t ∈ T, PostingsOk K t (lists t)

variable {t k : Bytes} {gs : List (List Bytes)} {lists : Bytes → List (List Bytes)} {s : EntryStore}

theorem PostingsOk.lastKey_mem (h : PostingsOk K t gs) (hg : g ∈ gs) :
    lastKey g ∈ K := (h.groups g hg).mem _ (h.groups g hg).lastKey_mem

theorem PostingsOk.group_ascending (h : PostingsOk K t gs) (hg : g ∈ gs) :
    g.Pairwise (· < ·) := (List.pairwise_flatten.mp h.ascending).1 g hg

theorem PostingsOk.lastKey_ascending (h : PostingsOk K t gs) :
    gs.Pairwise (fun g g' => lastKey g < lastKey g') := by
  refine (List.pairwise_flatten.mp h.ascending).2.imp_of_mem fun hg hg' hlt => ?_
  exact hlt _ (h.groups _ hg).lastKey_mem _ (h.groups _ hg').lastKey_mem

theorem PostingsOk.runs_ascending (hK : PrefixFree K) (h : PostingsOk K t gs) :
    (gs.map (runOf t)).Pairwise (· < ·) := by
  refine List.pairwise_map.mpr (h.lastKey_ascending.imp_of_mem fun hg hg' hlt => ?_)
  exact (runOf_lt_iff hK t (h.lastKey_mem hg) (h.lastKey_mem hg') hlt.ne).mpr hlt

/-- A scan that singles out some groups of one term meets their runs in order. -/
theorem StoreOk.scan_eq (hK : PrefixFree K) (h : StoreOk T K lists s) (ht : t ∈ T) (b : KeyBound)
    (p : List Bytes → Bool)
    (hb : ∀ t' ∈ T, ∀ g ∈ lists t', b.contains (runOf t' g) ↔ t' = t ∧ p g) :
    s.scan b = ((lists t).filter p).map (runOf t) := by
  have hasc := (h.postings t ht).runs_ascending hK
  refine List.Pairwise.eq_of_mem_iff ((EntryStore.sorted_iff.mp h.sorted).filter _)
    (hasc.sublist (List.filter_sublist.map _)) fun r => ?_
  rw [EntryStore.scan, List.mem_filter, h.runs]
  constructor
  · rintro ⟨⟨t', ht', g, hg, rfl⟩, hr⟩
    obtain ⟨rfl, hp⟩ := (hb t' ht' g hg).mp hr
    exact List.mem_map_of_mem (List.mem_filter.mpr ⟨hg, hp⟩)
  · intro hr
    obtain ⟨g, hg, rfl⟩ := List.mem_map.mp hr
    obtain ⟨hg, hp⟩ := List.mem_filter.mp hg
    exact ⟨⟨t, ht, g, hg, rfl⟩, (hb t ht g hg).mpr ⟨rfl, hp⟩⟩

theorem termBound_contains (hT : PrefixFree T) (ht : t ∈ T) (ht' : t' ∈ T)
    (g : List Bytes) : (termBound t).contains (runOf t' g) ↔ t' = t := by
  simp only [KeyBound.contains, termBound, Option.all_some, if_true, Bool.false_eq_true, if_false,
    Bool.and_eq_true, decide_eq_true_eq]
  constructor
  · rintro ⟨hle, hsucc⟩
    exact term_eq_of_prefix hT ht ht' ((prefixSuccessor_iff hle).mp hsucc)
  · rintro rfl
    obtain ⟨x, hx⟩ := runOf_eq t' g
    have hle : t' ≤ runOf t' g := hx ▸ le_append t' _
    exact ⟨hle, (prefixSuccessor_iff hle).mpr ⟨_, hx.symm⟩⟩

theorem StoreOk.scan_term (hT : PrefixFree T) (hK : PrefixFree K) (h : StoreOk T K lists s)
    (ht : t ∈ T) : s.scan (termBound t) = (lists t).map (runOf t) := by
  have := h.scan_eq hK ht (termBound t) (fun _ => true) fun t' ht' g hg => by
    simpa using termBound_contains hT ht ht' g
  rwa [List.filter_eq_self.mpr fun _ _ => rfl] at this

theorem StoreOk.scan_atOrAfter (hT : PrefixFree T) (hK : PrefixFree K) (h : StoreOk T K lists s)
    (ht : t ∈ T) (hk : k ∈ K) : s.scan { termBound t with lo := some (t ++ k) } =
      ((lists t).filter (fun g => k ≤ lastKey g)).map (runOf t) := by
  refine h.scan_eq hK ht _ _ fun t' ht' g hg => ?_
  simp only [KeyBound.contains, termBound, Option.all_some, if_true, Bool.false_eq_true, if_false,
    Bool.and_eq_true, decide_eq_true_eq]
  have hlast := (h.postings t' ht').lastKey_mem hg
  constructor
  · rintro ⟨hle, hsucc⟩
    have hprefix := (prefixSuccessor_iff ((le_append t k).trans hle)).mp hsucc
    obtain rfl := term_eq_of_prefix hT ht ht' hprefix
    exact ⟨rfl, (le_runOf_iff hK t' hk hlast).mp hle⟩
  · rintro ⟨rfl, hle⟩
    obtain ⟨x, hx⟩ := runOf_eq t' g
    have hterm : t' ≤ runOf t' g := hx ▸ le_append t' _
    exact ⟨(le_runOf_iff hK t' hk hlast).mpr hle, (prefixSuccessor_iff hterm).mpr ⟨_, hx.symm⟩⟩

theorem StoreOk.scan_before (hT : PrefixFree T) (hK : PrefixFree K) (h : StoreOk T K lists s)
    (ht : t ∈ T) (hk : k ∈ K) : s.scan { termBound t with hi := some (t ++ k) } =
      ((lists t).filter (fun g => lastKey g < k)).map (runOf t) := by
  refine h.scan_eq hK ht _ _ fun t' ht' g hg => ?_
  simp only [KeyBound.contains, termBound, Option.all_some, if_true, Bool.false_eq_true, if_false,
    Bool.and_eq_true, decide_eq_true_eq]
  have hlast := (h.postings t' ht').lastKey_mem hg
  constructor
  · rintro ⟨hle, hlt⟩
    obtain rfl := term_eq_of_prefix hT ht ht' (prefix_of_le_of_lt hle hlt)
    exact ⟨rfl, not_le.mp fun hk' => not_lt.mpr ((le_runOf_iff hK t' hk hlast).mpr hk') hlt⟩
  · rintro ⟨rfl, hlt⟩
    obtain ⟨x, hx⟩ := runOf_eq t' g
    refine ⟨hx ▸ le_append t' _, ?_⟩
    exact not_le.mp fun hle => not_lt.mpr ((le_runOf_iff hK t' hk hlast).mp hle) hlt

/-- A list is cut at its first element that misses a predicate. -/
theorem all_or_cut {α : Type} (p : α → Prop) [DecidablePred p] (l : List α) :
    (∀ x ∈ l, p x) ∨ ∃ L x R, l = L ++ x :: R ∧ (∀ y ∈ L, p y) ∧ ¬p x := by
  induction l with
  | nil => exact .inl (by simp)
  | cons y l ih =>
    by_cases hy : p y
    · rcases ih with hall | ⟨L, x, R, rfl, hL, hx⟩
      · exact .inl (List.forall_mem_cons.mpr ⟨hy, hall⟩)
      · exact .inr ⟨y :: L, x, R, rfl, List.forall_mem_cons.mpr ⟨hy, hL⟩, hx⟩
    · exact .inr ⟨[], y, l, rfl, by simp, hy⟩

theorem StoreOk.runAtOrAfter_none (hT : PrefixFree T) (hK : PrefixFree K) (h : StoreOk T K lists s)
    (ht : t ∈ T) (hk : k ∈ K) (hall : ∀ g ∈ lists t, lastKey g < k) :
    runAtOrAfter s t k = none := by
  have hnone : (lists t).filter (fun g => k ≤ lastKey g) = [] := by
    rw [List.filter_eq_nil_iff]
    intro g hg
    simpa using hall g hg
  rw [runAtOrAfter, EntryStore.scanFirst_eq, h.scan_atOrAfter hT hK ht hk, hnone]
  rfl

theorem StoreOk.runAtOrAfter_some (hT : PrefixFree T) (hK : PrefixFree K) (h : StoreOk T K lists s)
    (ht : t ∈ T) (hk : k ∈ K) {L R : List (List Bytes)}
    (hcut : lists t = L ++ g :: R) (hL : ∀ g ∈ L, lastKey g < k) (hg : k ≤ lastKey g) :
    runAtOrAfter s t k = some (runOf t g) := by
  have hnone : L.filter (fun g => k ≤ lastKey g) = [] := by
    rw [List.filter_eq_nil_iff]
    intro g hg
    simpa using hL g hg
  rw [runAtOrAfter, EntryStore.scanFirst_eq, h.scan_atOrAfter hT hK ht hk, hcut, List.filter_append,
    hnone, List.nil_append, List.filter_cons_of_pos (by simpa using hg)]
  rfl

theorem StoreOk.runBefore_eq (hT : PrefixFree T) (hK : PrefixFree K) (h : StoreOk T K lists s)
    (ht : t ∈ T) (hk : k ∈ K) (hall : ∀ g ∈ lists t, lastKey g < k) :
    runBefore s t k = (lists t).getLast?.map (runOf t) := by
  rw [runBefore, EntryStore.scanLast_eq, h.scan_before hT hK ht hk,
    List.filter_eq_self.mpr fun g hg => by simpa using hall g hg, List.getLast?_map]

theorem runOf_inj (hT : PrefixFree T) (ht : t ∈ T) (ht' : t' ∈ T) (h : runOf t g = runOf t' g') : t = t' := by
  obtain ⟨x, hx⟩ := runOf_eq t g
  exact term_eq_of_prefix hT ht' ht ⟨_, (h.trans (runOf_eq t' g').choose_spec).symm⟩

/-- A term's posting list is replaced, the other terms' are not touched. -/
theorem StoreOk.update (h : StoreOk T K lists s) (ht : t ∈ T) (hgs : PostingsOk K t gs)
    {s' : EntryStore} (hs' : SortedMap.Sorted s')
    (hruns : ∀ r, r ∈ s'.runs ↔ (∃ g ∈ gs, r = runOf t g) ∨
      ∃ t' ∈ T, t' ≠ t ∧ ∃ g ∈ lists t', r = runOf t' g) :
    StoreOk T K (Function.update lists t gs) s' := by
  refine ⟨hs', fun r => ?_, fun t' ht' => ?_⟩
  · rw [hruns]
    constructor
    · rintro (⟨g, hg, hr⟩ | ⟨t', ht', hne, g, hg, hr⟩)
      · exact ⟨t, ht, g, by simpa using hg, hr⟩
      · exact ⟨t', ht', g, by simpa [hne] using hg, hr⟩
    · rintro ⟨t', ht', g, hg, hr⟩
      by_cases hne : t' = t
      · subst hne
        exact .inl ⟨g, by simpa using hg, hr⟩
      · exact .inr ⟨t', ht', hne, g, by simpa [hne] using hg, hr⟩
  · by_cases hne : t' = t
    · subst hne
      simpa using hgs
    · simpa [hne] using h.postings t' ht'

/-- `replace_run` puts other groups in the place of one. -/
theorem StoreOk.replaceRun (hT : PrefixFree T) (hK : PrefixFree K) (h : StoreOk T K lists s)
    (ht : t ∈ T) {L R : List (List Bytes)} (hcut : lists t = L ++ g :: R)
    (hgs : PostingsOk K t (L ++ gs ++ R)) :
    StoreOk T K (Function.update lists t (L ++ gs ++ R))
      (replaceRun s (runOf t g) (gs.map (runOf t))) := by
  obtain ⟨hsorted, hmem⟩ := replaceRun_spec h.sorted (runOf t g) (gs.map (runOf t))
  refine h.update ht hgs hsorted fun r => ?_
  have hasc := (h.postings t ht).runs_ascending hK
  rw [hcut, List.map_append, List.map_cons, List.pairwise_append, List.pairwise_cons] at hasc
  obtain ⟨-, ⟨hR, -⟩, hL⟩ := hasc
  rw [hmem, h.runs]
  constructor
  · rintro (hr | ⟨hne, t', ht', g', hg', rfl⟩)
    · obtain ⟨g', hg', rfl⟩ := List.mem_map.mp hr
      exact .inl ⟨g', by simp [hg'], rfl⟩
    · by_cases htt : t' = t
      · subst htt
        rw [hcut] at hg'
        refine .inl ⟨g', ?_, rfl⟩
        rcases List.mem_append.mp hg' with hg' | hg'
        · simp [hg']
        · rcases List.mem_cons.mp hg' with rfl | hg'
          · exact absurd rfl hne
          · simp [hg']
      · exact .inr ⟨t', ht', htt, g', hg', rfl⟩
  · rintro (⟨g', hg', rfl⟩ | ⟨t', ht', hne, g', hg', rfl⟩)
    · rw [List.append_assoc, List.mem_append, List.mem_append] at hg'
      rcases hg' with hg' | hg' | hg'
      · have hlt := hL _ (List.mem_map_of_mem hg') _ List.mem_cons_self
        exact .inr ⟨hlt.ne, t, ht, g', by simp [hcut, hg'], rfl⟩
      · exact .inl (List.mem_map_of_mem hg')
      · have hlt := hR _ (List.mem_map_of_mem hg')
        exact .inr ⟨hlt.ne', t, ht, g', by simp [hcut, hg'], rfl⟩
    · exact .inr ⟨fun heq => hne (runOf_inj hT ht' ht heq), t', ht', g', hg', rfl⟩

end Order

end Jed.Gin
