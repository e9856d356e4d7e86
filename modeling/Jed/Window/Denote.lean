import Jed.Window.FrameSpec

/-!
# The bounds of a frame

Each row's bounds are those of its frame: the scans over the keys of a `RANGE` stop where the sorted keys
leave it.
-/

namespace Jed.Window

open Compare Key KeyCodes Results Sorts

/-! ## One key -/

/-- The value a bound's offset leads to. -/
def boundValue (cur off : Value) (subtract : Bool) : ℚ :=
  if subtract then numOf cur - numOf off else numOf cur + numOf off

/-- A key at or after a start at `x`. -/
def StartIn (key : SortKey) (x : ℚ) : Value → Prop
  | .null => key.nullsFirst = false
  | v => if key.descending then numOf v ≤ x else x ≤ numOf v

/-- A key at or before an end at `x`. -/
def FinishIn (key : SortKey) (x : ℚ) : Value → Prop
  | .null => key.nullsFirst = true
  | v => if key.descending then x ≤ numOf v else numOf v ≤ x

theorem startIn_of_ne {key : SortKey} {x : ℚ} {v : Value} (h : v ≠ .null) :
    StartIn key x v ↔ if key.descending then numOf v ≤ x else x ≤ numOf v := by
  cases v <;> first | exact absurd rfl h | exact Iff.rfl

theorem finishIn_of_ne {key : SortKey} {x : ℚ} {v : Value} (h : v ≠ .null) :
    FinishIn key x v ↔ if key.descending then x ≤ numOf v else numOf v ≤ x := by
  cases v <;> first | exact absurd rfl h | exact Iff.rfl

/-- The bound of an offset is within the cap of decimals. -/
def BoundOk (key : SortKey) (cur : Value) : ResolvedBound → Prop
  | .preceding (.decimal o) =>
    ∀ c, cur = .decimal c → ∃ r, (if key.descending then c.add o else c.sub o) = .ok r
  | .following (.decimal o) =>
    ∀ c, cur = .decimal c → ∃ r, (if key.descending then c.sub o else c.add o) = .ok r
  | _ => True

theorem compare_intCast (m n : ℤ) : compare (m : ℚ) (n : ℚ) = compare m n := by
  rw [← cmp_eq_compare, ← cmp_eq_compare, Int.cast_strictMono.cmp_map_eq]

theorem NumKind.Is.ne_null {kind : NumKind} {v : Value} (h : kind.Is v) : v ≠ .null := by
  rintro rfl
  cases kind <;> exact h

variable {F : FloatArith}

/-- The comparison with a bound is that of the numbers. -/
theorem rangeVVsBound_ok {kind : NumKind} {v cur off : Value} {subtract : Bool} {ord : Ordering}
    (hv : kind.Is v) (hcur : kind.Is cur) (hoff : kind.Is off)
    (h : rangeVVsBound F v cur off subtract = .ok ord) :
    ord = compare (numOf v) (boundValue cur off subtract) := by
  cases kind with
  | int =>
    cases v <;> try exact hv.elim
    cases cur <;> try exact hcur.elim
    cases off <;> try exact hoff.elim
    rename_i x c o
    have hc : IsI64 c := hcur
    have ho : IsI64 o := hoff
    unfold IsI64 at hc ho
    obtain ⟨b, hb, rfl⟩ := map_eq_ok.mp h
    rw [wide_eq (by split <;> omega)] at hb
    cases hb
    rw [← compare_intCast]
    cases subtract with
    | true => simp [boundValue, numOf]
    | false => simp [boundValue, numOf]
  | decimal =>
    cases v <;> try exact hv.elim
    cases cur <;> try exact hcur.elim
    cases off <;> try exact hoff.elim
    rw [rangeVVsBound] at h
    obtain ⟨b, hb, rfl⟩ := map_eq_ok.mp h
    rw [valueCmp, Decimal.cmpValue_eq]
    cases subtract with
    | true =>
      rw [Decimal.toRat_sub hb]
      rfl
    | false =>
      rw [Decimal.toRat_add hb]
      rfl

/-- There is a comparison with a bound within the cap. -/
theorem rangeVVsBound_exists {kind : NumKind} {v cur off : Value} {subtract : Bool}
    (hv : kind.Is v) (hcur : kind.Is cur) (hoff : kind.Is off)
    (hbound : ∀ c o, cur = .decimal c → off = .decimal o →
      ∃ r, (if subtract then c.sub o else c.add o) = .ok r) :
    ∃ ord, rangeVVsBound F v cur off subtract = .ok ord := by
  cases kind with
  | int =>
    cases v <;> try exact hv.elim
    cases cur <;> try exact hcur.elim
    cases off <;> try exact hoff.elim
    rename_i x c o
    have hc : IsI64 c := hcur
    have ho : IsI64 o := hoff
    unfold IsI64 at hc ho
    exact ⟨_, map_eq_ok.mpr ⟨_, wide_eq (by split <;> omega), rfl⟩⟩
  | decimal =>
    cases v <;> try exact hv.elim
    cases cur <;> try exact hcur.elim
    cases off <;> try exact hoff.elim
    obtain ⟨r, hr⟩ := hbound _ _ rfl rfl
    rw [rangeVVsBound]
    exact ⟨_, map_eq_ok.mpr ⟨r, hr, rfl⟩⟩

section

variable {key : SortKey} {kind : NumKind} {cur off : Value} {subtract : Bool}

theorem start_test {v : Value} (hv : kind.Is v) (x : ℚ) :
    (if key.descending then compare (numOf v) x != .gt else compare (numOf v) x != .lt) = true ↔
      StartIn key x v := by
  rw [startIn_of_ne hv.ne_null]
  cases key.descending with
  | true => simp [bne_iff_ne, compare_le_iff_le]
  | false => simp [bne_iff_ne, compare_ge_iff_ge]

theorem finish_test {v : Value} (hv : kind.Is v) (x : ℚ) :
    (if key.descending then compare (numOf v) x != .lt else compare (numOf v) x != .gt) = true ↔
      FinishIn key x v := by
  rw [finishIn_of_ne hv.ne_null]
  cases key.descending with
  | true => simp [bne_iff_ne, compare_ge_iff_ge]
  | false => simp [bne_iff_ne, compare_le_iff_le]

/-- The scan for a start stops at the first key that is in. -/
theorem rangeStartFrom_ok (hcur : kind.Is cur) (hoff : kind.Is off) {rows : List Entry} :
    ∀ {i k : ℕ}, (∀ e ∈ rows, slotValue e.2 key = .null ∨ kind.Is (slotValue e.2 key)) →
    rangeStartFrom F key cur off subtract i rows = .ok k →
    ∃ m, k = i + m ∧ m ≤ rows.length ∧
      (∀ (j : ℕ) (row : Entry), j < m → rows[j]? = some row →
        ¬StartIn key (boundValue cur off subtract) (slotValue row.2 key)) ∧
      ∀ row : Entry, rows[m]? = some row →
        StartIn key (boundValue cur off subtract) (slotValue row.2 key) := by
  induction rows with
  | nil =>
    intro i k _ h
    cases h
    exact ⟨0, rfl, le_rfl, fun j _ hj => absurd hj (Nat.not_lt_zero j), fun _ h => by cases h⟩
  | cons row rows ih =>
    intro i k hrows h
    have hrest := fun e he => hrows e (List.mem_cons_of_mem _ he)
    -- a row that is not in is passed over
    have hskip : ¬StartIn key (boundValue cur off subtract) (slotValue row.2 key) →
        rangeStartFrom F key cur off subtract (i + 1) rows = .ok k →
        ∃ m, k = i + m ∧ m ≤ (row :: rows).length ∧
          (∀ (j : ℕ) (r : Entry), j < m → (row :: rows)[j]? = some r →
            ¬StartIn key (boundValue cur off subtract) (slotValue r.2 key)) ∧
          ∀ r : Entry, (row :: rows)[m]? = some r →
            StartIn key (boundValue cur off subtract) (slotValue r.2 key) := by
      intro hout h
      obtain ⟨m, rfl, hm, hbefore, hat⟩ := ih hrest h
      refine ⟨m + 1, by omega, Nat.succ_le_succ hm, fun j r hj hr => ?_, fun r hr => hat r hr⟩
      cases j with
      | zero =>
        cases hr
        exact hout
      | succ j => exact hbefore j r (Nat.lt_of_succ_lt_succ hj) hr
    -- a row that is in is the start
    have hstop : StartIn key (boundValue cur off subtract) (slotValue row.2 key) → i = k →
        ∃ m, k = i + m ∧ m ≤ (row :: rows).length ∧
          (∀ (j : ℕ) (r : Entry), j < m → (row :: rows)[j]? = some r →
            ¬StartIn key (boundValue cur off subtract) (slotValue r.2 key)) ∧
          ∀ r : Entry, (row :: rows)[m]? = some r →
            StartIn key (boundValue cur off subtract) (slotValue r.2 key) := by
      rintro hin rfl
      exact ⟨0, rfl, Nat.zero_le _, fun j _ hj => absurd hj (Nat.not_lt_zero j), fun r hr => by
        cases hr
        exact hin⟩
    rw [rangeStartFrom] at h
    split at h
    · rename_i hnull
      rw [hnull] at hskip hstop
      by_cases hfirst : key.nullsFirst = true
      · rw [if_pos hfirst] at h
        exact hskip (fun hin => by rw [StartIn, hfirst] at hin; cases hin) h
      · rw [if_neg hfirst] at h
        exact hstop (Bool.eq_false_iff.mpr hfirst) (Except.ok.inj h)
    · rename_i hne
      have hv := (hrows row List.mem_cons_self).resolve_left hne
      obtain ⟨ord, hord, h⟩ := bind_eq_ok.mp h
      rw [rangeVVsBound_ok hv hcur hoff hord] at h
      by_cases hin : StartIn key (boundValue cur off subtract) (slotValue row.2 key)
      · rw [if_pos ((start_test hv _).mpr hin)] at h
        exact hstop hin (Except.ok.inj h)
      · rw [if_neg fun htest => hin ((start_test hv _).mp htest)] at h
        exact hskip hin h

/-- The scan for an end stops at the first key that is not in. -/
theorem rangeEndFrom_ok (hcur : kind.Is cur) (hoff : kind.Is off) {rows : List Entry} :
    ∀ {i k : ℕ}, (∀ e ∈ rows, slotValue e.2 key = .null ∨ kind.Is (slotValue e.2 key)) →
    rangeEndFrom F key cur off subtract i i rows = .ok k →
    ∃ m, k = i + m ∧ m ≤ rows.length ∧
      (∀ (j : ℕ) (row : Entry), j < m → rows[j]? = some row →
        FinishIn key (boundValue cur off subtract) (slotValue row.2 key)) ∧
      ∀ row : Entry, rows[m]? = some row →
        ¬FinishIn key (boundValue cur off subtract) (slotValue row.2 key) := by
  induction rows with
  | nil =>
    intro i k _ h
    cases h
    exact ⟨0, rfl, le_rfl, fun j _ hj => absurd hj (Nat.not_lt_zero j), fun _ h => by cases h⟩
  | cons row rows ih =>
    intro i k hrows h
    have hrest := fun e he => hrows e (List.mem_cons_of_mem _ he)
    -- a row that is in is taken
    have htake : FinishIn key (boundValue cur off subtract) (slotValue row.2 key) →
        rangeEndFrom F key cur off subtract (i + 1) (i + 1) rows = .ok k →
        ∃ m, k = i + m ∧ m ≤ (row :: rows).length ∧
          (∀ (j : ℕ) (r : Entry), j < m → (row :: rows)[j]? = some r →
            FinishIn key (boundValue cur off subtract) (slotValue r.2 key)) ∧
          ∀ r : Entry, (row :: rows)[m]? = some r →
            ¬FinishIn key (boundValue cur off subtract) (slotValue r.2 key) := by
      intro hin h
      obtain ⟨m, rfl, hm, hbefore, hat⟩ := ih hrest h
      refine ⟨m + 1, by omega, Nat.succ_le_succ hm, fun j r hj hr => ?_, fun r hr => hat r hr⟩
      cases j with
      | zero =>
        cases hr
        exact hin
      | succ j => exact hbefore j r (Nat.lt_of_succ_lt_succ hj) hr
    -- a row that is not in ends the scan
    have hstop : ¬FinishIn key (boundValue cur off subtract) (slotValue row.2 key) → i = k →
        ∃ m, k = i + m ∧ m ≤ (row :: rows).length ∧
          (∀ (j : ℕ) (r : Entry), j < m → (row :: rows)[j]? = some r →
            FinishIn key (boundValue cur off subtract) (slotValue r.2 key)) ∧
          ∀ r : Entry, (row :: rows)[m]? = some r →
            ¬FinishIn key (boundValue cur off subtract) (slotValue r.2 key) := by
      rintro hout rfl
      exact ⟨0, rfl, Nat.zero_le _, fun j _ hj => absurd hj (Nat.not_lt_zero j), fun r hr => by
        cases hr
        exact hout⟩
    rw [rangeEndFrom] at h
    split at h
    · rename_i hnull
      rw [hnull] at htake hstop
      by_cases hfirst : key.nullsFirst = true
      · rw [if_pos hfirst] at h
        exact htake hfirst h
      · rw [if_neg hfirst] at h
        exact hstop hfirst (Except.ok.inj h)
    · rename_i hne
      have hv := (hrows row List.mem_cons_self).resolve_left hne
      obtain ⟨ord, hord, h⟩ := bind_eq_ok.mp h
      rw [rangeVVsBound_ok hv hcur hoff hord] at h
      by_cases hin : FinishIn key (boundValue cur off subtract) (slotValue row.2 key)
      · rw [if_pos ((finish_test hv _).mpr hin)] at h
        exact htake hin h
      · rw [if_neg fun htest => hin ((finish_test hv _).mp htest)] at h
        exact hstop hin (Except.ok.inj h)

theorem rangeStartFrom_exists (hcur : kind.Is cur) (hoff : kind.Is off)
    (hbound : ∀ c o, cur = .decimal c → off = .decimal o →
      ∃ r, (if subtract then c.sub o else c.add o) = .ok r) {rows : List Entry} :
    ∀ {i : ℕ}, (∀ e ∈ rows, slotValue e.2 key = .null ∨ kind.Is (slotValue e.2 key)) →
    ∃ k, rangeStartFrom F key cur off subtract i rows = .ok k := by
  induction rows with
  | nil => exact fun _ => ⟨_, rfl⟩
  | cons row rows ih =>
    intro i hrows
    have hrest := @ih (i + 1) fun e he => hrows e (List.mem_cons_of_mem _ he)
    rw [rangeStartFrom]
    split
    · split
      · exact hrest
      · exact ⟨_, rfl⟩
    · rename_i hne
      have hv := (hrows row List.mem_cons_self).resolve_left hne
      obtain ⟨ord, hord⟩ := @rangeVVsBound_exists F kind _ _ _ subtract hv hcur hoff hbound
      rw [hord]
      simp only [bind, Except.bind]
      by_cases htest : (if key.descending then ord != .gt else ord != .lt) = true
      · exact ⟨i, by rw [if_pos htest]; rfl⟩
      · rw [if_neg htest]
        exact hrest

theorem rangeEndFrom_exists (hcur : kind.Is cur) (hoff : kind.Is off)
    (hbound : ∀ c o, cur = .decimal c → off = .decimal o →
      ∃ r, (if subtract then c.sub o else c.add o) = .ok r) {rows : List Entry} :
    ∀ {hi i : ℕ}, (∀ e ∈ rows, slotValue e.2 key = .null ∨ kind.Is (slotValue e.2 key)) →
    ∃ k, rangeEndFrom F key cur off subtract hi i rows = .ok k := by
  induction rows with
  | nil => exact fun _ => ⟨_, rfl⟩
  | cons row rows ih =>
    intro hi i hrows
    have hrest := @ih (i + 1) (i + 1) fun e he => hrows e (List.mem_cons_of_mem _ he)
    rw [rangeEndFrom]
    split
    · split
      · exact hrest
      · exact ⟨_, rfl⟩
    · rename_i hne
      have hv := (hrows row List.mem_cons_self).resolve_left hne
      obtain ⟨ord, hord⟩ := @rangeVVsBound_exists F kind _ _ _ subtract hv hcur hoff hbound
      rw [hord]
      simp only [bind, Except.bind]
      by_cases htest : (if key.descending then ord != .lt else ord != .gt) = true
      · rw [if_pos htest]
        exact hrest
      · exact ⟨hi, by rw [if_neg htest]; rfl⟩

/-! ## Sorted keys -/

theorem valueCmp_num {v w : Value} (hv : kind.Is v) (hw : kind.Is w) :
    valueCmp v w = compare (numOf v) (numOf w) := by
  cases kind with
  | int =>
    cases v <;> try exact hv.elim
    cases w <;> try exact hw.elim
    rw [valueCmp, numOf, numOf, compare_intCast]
  | decimal =>
    cases v <;> try exact hv.elim
    cases w <;> try exact hw.elim
    rw [valueCmp, Decimal.cmpValue_eq]
    rfl

/-- A key before another, or equal to it, in the direction of the order. -/
theorem keyCmp_num {v w : Value} (hv : kind.Is v) (hw : kind.Is w) (nullsFirst : Bool) (desc : Bool) :
    (keyCmp v w desc nullsFirst ≠ .gt ↔ if desc then numOf w ≤ numOf v else numOf v ≤ numOf w) ∧
      (keyCmp v w desc nullsFirst ≠ .lt ↔ if desc then numOf v ≤ numOf w else numOf w ≤ numOf v) := by
  rw [keyCmp, nullCmp_present hv.ne_null hw.ne_null, valueCmp_num hv hw]
  cases desc with
  | true =>
    simp only [if_true]
    have hswap : (compare (numOf v) (numOf w)).swap = compare (numOf w) (numOf v) :=
      Std.OrientedCmp.eq_swap.symm
    rw [hswap, compare_le_iff_le, compare_ge_iff_ge]
    exact ⟨Iff.rfl, Iff.rfl⟩
  | false =>
    simp only [Bool.false_eq_true, if_false]
    rw [compare_le_iff_le, compare_ge_iff_ge]
    exact ⟨Iff.rfl, Iff.rfl⟩

/-- Once a key is in, the keys behind it are. -/
theorem startIn_mono {v w : Value} (hv : v = .null ∨ kind.Is v) (hw : w = .null ∨ kind.Is w) {x : ℚ}
    (h : keyCmp v w key.descending key.nullsFirst ≠ .gt) (hin : StartIn key x v) : StartIn key x w := by
  cases hw with
  | inl hw =>
    subst hw
    cases hv with
    | inl hv =>
      subst hv
      exact hin
    | inr hv =>
      rw [keyCmp, nullCmp_right hv.ne_null] at h
      cases hfirst : key.nullsFirst with
      | true => exact absurd (by rw [hfirst]; rfl) h
      | false => exact hfirst
  | inr hw =>
    rw [startIn_of_ne hw.ne_null]
    cases hv with
    | inl hv =>
      subst hv
      rw [keyCmp, nullCmp_left hw.ne_null, show key.nullsFirst = false from hin] at h
      exact absurd rfl h
    | inr hv =>
      rw [startIn_of_ne hv.ne_null] at hin
      have hle := (keyCmp_num hv hw key.nullsFirst key.descending).1.mp h
      cases hdesc : key.descending with
      | true =>
        simp only [hdesc, if_true] at hin hle ⊢
        exact hle.trans hin
      | false =>
        simp only [hdesc, Bool.false_eq_true, if_false] at hin hle ⊢
        exact hin.trans hle

/-- While a key is in, the keys before it are. -/
theorem finishIn_anti {v w : Value} (hv : v = .null ∨ kind.Is v) (hw : w = .null ∨ kind.Is w) {x : ℚ}
    (h : keyCmp v w key.descending key.nullsFirst ≠ .gt) (hin : FinishIn key x w) : FinishIn key x v := by
  cases hv with
  | inl hv =>
    subst hv
    cases hw with
    | inl hw =>
      subst hw
      exact hin
    | inr hw =>
      rw [keyCmp, nullCmp_left hw.ne_null] at h
      cases hfirst : key.nullsFirst with
      | true => exact hfirst
      | false => exact absurd (by rw [hfirst]; rfl) h
  | inr hv =>
    rw [finishIn_of_ne hv.ne_null]
    cases hw with
    | inl hw =>
      subst hw
      rw [keyCmp, nullCmp_right hv.ne_null, show key.nullsFirst = true from hin] at h
      exact absurd rfl h
    | inr hw =>
      rw [finishIn_of_ne hw.ne_null] at hin
      have hle := (keyCmp_num hv hw key.nullsFirst key.descending).1.mp h
      cases hdesc : key.descending with
      | true =>
        simp only [hdesc, if_true] at hin hle ⊢
        exact hin.trans hle
      | false =>
        simp only [hdesc, Bool.false_eq_true, if_false] at hin hle ⊢
        exact hle.trans hin

end

/-! ## Edges of a `RANGE` -/

/-- A row at or after the start of a frame by the key. -/
def StartOf (key : SortKey) (cur : Value) (b : ResolvedBound) : Value → Prop
  | .null => key.nullsFirst = true → b = .unboundedPreceding
  | v => KeyStart key cur v b

/-- A row at or before the end of a frame by the key. -/
def FinishOf (key : SortKey) (cur : Value) (b : ResolvedBound) : Value → Prop
  | .null => key.nullsFirst = false → b = .unboundedFollowing
  | v => KeyFinish key cur v b

theorem startOf_of_ne {key : SortKey} {cur v : Value} {b : ResolvedBound} (h : v ≠ .null) :
    StartOf key cur b v ↔ KeyStart key cur v b := by
  cases v <;> first | exact absurd rfl h | exact Iff.rfl

theorem finishOf_of_ne {key : SortKey} {cur v : Value} {b : ResolvedBound} (h : v ≠ .null) :
    FinishOf key cur b v ↔ KeyFinish key cur v b := by
  cases v <;> first | exact absurd rfl h | exact Iff.rfl

theorem keyFrame_iff (key : SortKey) (f : ResolvedFrame) (cur row : Entry) :
    KeyFrame key f cur row ↔ StartOf key (slotValue cur.2 key) f.start (slotValue row.2 key) ∧
      FinishOf key (slotValue cur.2 key) f.finish (slotValue row.2 key) := by
  unfold KeyFrame
  split
  · rename_i hnull
    rw [hnull]
    cases hfirst : key.nullsFirst with
    | true => simp [StartOf, FinishOf, hfirst]
    | false => simp [StartOf, FinishOf, hfirst]
  · rename_i hne
    rw [startOf_of_ne hne, finishOf_of_ne hne]

theorem cmpWindowRows_single {key : SortKey} (hcoll : key.coll = none) (a b : Entry) :
    cmpWindowRows [key] a b =
      keyCmp (slotValue a.2 key) (slotValue b.2 key) key.descending key.nullsFirst := by
  rw [cmpWindowRows, cmpDecoratedParts, hcoll]
  simp only [cmpDecoratedParts, Ordering.then_eq]

section

variable {types : ℕ → ColType} {key : SortKey} {ordered : List Entry} {kind : NumKind}
  (hs : Sorted types [key] ordered) (hcoll : key.coll = none)
  (hrows : ∀ e ∈ ordered, slotValue e.2 key = .null ∨ kind.Is (slotValue e.2 key))

include hs hcoll

theorem keyCmp_sorted {i j : ℕ} (hij : i < j) {a b : Entry} (ha : ordered[i]? = some a)
    (hb : ordered[j]? = some b) :
    keyCmp (slotValue a.2 key) (slotValue b.2 key) key.descending key.nullsFirst ≠ .gt := by
  obtain ⟨hi, rfl⟩ := List.getElem?_eq_some_iff.mp ha
  obtain ⟨hj, rfl⟩ := List.getElem?_eq_some_iff.mp hb
  rw [← cmpWindowRows_single hcoll]
  exact List.pairwise_iff_getElem.mp hs.sorted i j hi hj hij

include hrows

/-- The start that a scan finds. -/
theorem rangeStart_spec {cur off : Value} (hcur : kind.Is cur) (hoff : kind.Is off) {isPreceding : Bool}
    {lo : ℕ} (h : (FrameCtx.new ordered [key]).rangeStart F key cur off isPreceding = .ok lo) :
    lo ≤ ordered.length ∧ ∀ (i : ℕ) (row : Entry), ordered[i]? = some row →
      (lo ≤ i ↔
        StartIn key (boundValue cur off (isPreceding != key.descending)) (slotValue row.2 key)) := by
  obtain ⟨m, rfl, hm, hbefore, hat⟩ := rangeStartFrom_ok hcur hoff hrows h
  rw [Nat.zero_add]
  refine ⟨hm, fun i row hrow => ⟨fun hle => ?_, fun hin => ?_⟩⟩
  · have hlt := (List.getElem?_eq_some_iff.mp hrow).1
    have hfirst := List.getElem?_eq_getElem (hle.trans_lt hlt)
    rcases Nat.lt_or_eq_of_le hle with hless | rfl
    · exact startIn_mono (hrows _ (List.mem_of_getElem? hfirst)) (hrows _ (List.mem_of_getElem? hrow))
        (keyCmp_sorted hs hcoll hless hfirst hrow) (hat _ hfirst)
    · exact hat row hrow
  · by_contra hlt
    exact hbefore i row (not_le.mp hlt) hrow hin

/-- The end that a scan from the start finds. -/
theorem rangeEnd_spec {cur off : Value} (hcur : kind.Is cur) (hoff : kind.Is off) {isPreceding : Bool}
    {lo hi : ℕ} (hlo : lo ≤ ordered.length)
    (h : (FrameCtx.new ordered [key]).rangeEnd F key cur off isPreceding lo = .ok hi) :
    hi ≤ ordered.length ∧ ∀ (i : ℕ) (row : Entry), lo ≤ i → ordered[i]? = some row →
      (i < hi ↔
        FinishIn key (boundValue cur off (isPreceding != key.descending)) (slotValue row.2 key)) := by
  obtain ⟨m, rfl, hm, hbefore, hat⟩ := rangeEndFrom_ok hcur hoff
    (fun e he => hrows e (List.mem_of_mem_drop he)) h
  have hm : m ≤ (ordered.drop lo).length := hm
  rw [List.length_drop] at hm
  have hdrop : ∀ (j : ℕ) (row : Entry), ordered[lo + j]? = some row →
      ((FrameCtx.new ordered [key]).ordered.drop lo)[j]? = some row := by
    intro j row hrow
    rw [List.getElem?_drop]
    exact hrow
  refine ⟨by omega, fun i row hle hrow => ⟨fun hlt => ?_, fun hin => ?_⟩⟩
  · refine hbefore (i - lo) row (by omega) (hdrop _ row ?_)
    rwa [Nat.add_sub_cancel' hle]
  · by_contra hge
    have hlast : lo + m < ordered.length :=
      (not_lt.mp hge).trans_lt (List.getElem?_eq_some_iff.mp hrow).1
    have hfirst := List.getElem?_eq_getElem hlast
    refine hat _ (hdrop m _ hfirst) ?_
    rcases Nat.lt_or_eq_of_le (not_lt.mp hge) with hless | rfl
    · exact finishIn_anti (hrows _ (List.mem_of_getElem? hfirst)) (hrows _ (List.mem_of_getElem? hrow))
        (keyCmp_sorted hs hcoll hless hfirst hrow) hin
    · cases hfirst.symm.trans hrow
      exact hin

variable {pos : ℕ} (hpos : pos < ordered.length) (hcur : kind.Is (slotValue ordered[pos].2 key))

include hpos hcur

theorem rangeLo_spec {b : ResolvedBound} (hb : b ≠ .unboundedFollowing)
    (hoff : ∀ off, b.offset? = some off → kind.Is off) {lo : ℕ}
    (h : (FrameCtx.new ordered [key]).rangeLo F key (slotValue ordered[pos].2 key) pos b = .ok lo) :
    lo ≤ ordered.length ∧ ∀ (i : ℕ) (row : Entry), ordered[i]? = some row →
      (lo ≤ i ↔ StartOf key (slotValue ordered[pos].2 key) b (slotValue row.2 key)) := by
  have hscan : ∀ {off : Value} {isPreceding : Bool}, kind.Is off →
      (∀ v, v ≠ .null → (KeyStart key (slotValue ordered[pos].2 key) v b ↔
        StartIn key (boundValue (slotValue ordered[pos].2 key) off (isPreceding != key.descending)) v)) →
      b ≠ .unboundedPreceding →
      (FrameCtx.new ordered [key]).rangeStart F key (slotValue ordered[pos].2 key) off isPreceding =
        .ok lo →
      lo ≤ ordered.length ∧ ∀ (i : ℕ) (row : Entry), ordered[i]? = some row →
        (lo ≤ i ↔ StartOf key (slotValue ordered[pos].2 key) b (slotValue row.2 key)) := by
    intro off isPreceding hoff hkey hne h
    obtain ⟨hle, hall⟩ := rangeStart_spec hs hcoll hrows hcur hoff h
    refine ⟨hle, fun i row hrow => (hall i row hrow).trans ?_⟩
    by_cases hnull : slotValue row.2 key = .null
    · rw [hnull]
      simp [StartIn, StartOf, hne]
    · rw [startOf_of_ne hnull, hkey _ hnull]
  cases b with
  | unboundedPreceding =>
    cases h
    refine ⟨Nat.zero_le _, fun i row _ => iff_of_true (Nat.zero_le _) ?_⟩
    by_cases hnull : slotValue row.2 key = .null
    · rw [hnull]
      exact fun _ => rfl
    · exact (startOf_of_ne hnull).mpr trivial
  | preceding off =>
    refine hscan (hoff off rfl) (fun v hv => ?_) ResolvedBound.noConfusion h
    rw [startIn_of_ne hv]
    cases hdesc : key.descending <;> simp [KeyStart, boundValue, hdesc]
  | currentRow =>
    cases h
    refine ⟨(peerEnd_le hs hpos).1.trans hpos.le, fun i row hrow => ?_⟩
    obtain ⟨hi, rfl⟩ := List.getElem?_eq_some_iff.mp hrow
    rw [peerStart_le_iff hs hi hpos, cmpWindowRows_single hcoll]
    by_cases hnull : slotValue ordered[i].2 key = .null
    · rw [hnull, keyCmp, nullCmp_left hcur.ne_null]
      cases hfirst : key.nullsFirst <;> simp [StartOf, hfirst]
    · have hkind := (hrows _ (List.getElem_mem hi)).resolve_left hnull
      rw [startOf_of_ne hnull, (keyCmp_num hkind hcur _ _).2]
      rfl
  | following off =>
    refine hscan (hoff off rfl) (fun v hv => ?_) ResolvedBound.noConfusion h
    rw [startIn_of_ne hv]
    cases hdesc : key.descending <;> simp [KeyStart, boundValue, hdesc]
  | unboundedFollowing => exact absurd rfl hb

theorem rangeHi_spec {b : ResolvedBound} (hb : b ≠ .unboundedPreceding)
    (hoff : ∀ off, b.offset? = some off → kind.Is off) {lo hi : ℕ} (hlo : lo ≤ ordered.length)
    (h : (FrameCtx.new ordered [key]).rangeHi F key (slotValue ordered[pos].2 key) pos lo b = .ok hi) :
    hi ≤ ordered.length ∧ ∀ (i : ℕ) (row : Entry), lo ≤ i → ordered[i]? = some row →
      (i < hi ↔ FinishOf key (slotValue ordered[pos].2 key) b (slotValue row.2 key)) := by
  have hscan : ∀ {off : Value} {isPreceding : Bool}, kind.Is off →
      (∀ v, v ≠ .null → (KeyFinish key (slotValue ordered[pos].2 key) v b ↔
        FinishIn key (boundValue (slotValue ordered[pos].2 key) off (isPreceding != key.descending)) v)) →
      b ≠ .unboundedFollowing →
      (FrameCtx.new ordered [key]).rangeEnd F key (slotValue ordered[pos].2 key) off isPreceding lo =
        .ok hi →
      hi ≤ ordered.length ∧ ∀ (i : ℕ) (row : Entry), lo ≤ i → ordered[i]? = some row →
        (i < hi ↔ FinishOf key (slotValue ordered[pos].2 key) b (slotValue row.2 key)) := by
    intro off isPreceding hoff hkey hne h
    obtain ⟨hle, hall⟩ := rangeEnd_spec hs hcoll hrows hcur hoff hlo h
    refine ⟨hle, fun i row hi hrow => (hall i row hi hrow).trans ?_⟩
    by_cases hnull : slotValue row.2 key = .null
    · rw [hnull]
      simp [FinishIn, FinishOf, hne]
    · rw [finishOf_of_ne hnull, hkey _ hnull]
  cases b with
  | unboundedPreceding => exact absurd rfl hb
  | preceding off =>
    refine hscan (hoff off rfl) (fun v hv => ?_) ResolvedBound.noConfusion h
    rw [finishIn_of_ne hv]
    cases hdesc : key.descending <;> simp [KeyFinish, boundValue, hdesc]
  | currentRow =>
    cases h
    refine ⟨(peerEnd_le hs hpos).2, fun i row _ hrow => ?_⟩
    obtain ⟨hi, rfl⟩ := List.getElem?_eq_some_iff.mp hrow
    rw [lt_peerEnd_iff hs hi hpos, cmpWindowRows_single hcoll]
    by_cases hnull : slotValue ordered[i].2 key = .null
    · rw [hnull, keyCmp, nullCmp_left hcur.ne_null]
      cases hfirst : key.nullsFirst <;> simp [FinishOf, hfirst]
    · have hkind := (hrows _ (List.getElem_mem hi)).resolve_left hnull
      rw [finishOf_of_ne hnull, (keyCmp_num hkind hcur _ _).1]
      rfl
  | following off =>
    refine hscan (hoff off rfl) (fun v hv => ?_) ResolvedBound.noConfusion h
    rw [finishIn_of_ne hv]
    cases hdesc : key.descending <;> simp [KeyFinish, boundValue, hdesc]
  | unboundedFollowing =>
    cases h
    refine ⟨le_rfl, fun i row _ hrow => iff_of_true (List.getElem?_eq_some_iff.mp hrow).1 ?_⟩
    by_cases hnull : slotValue row.2 key = .null
    · rw [hnull]
      exact fun _ => rfl
    · exact (finishOf_of_ne hnull).mpr trivial

end

/-! ## Frames -/

section

variable {types : ℕ → ColType} {order : List SortKey} {ordered : List Entry}
  (hs : Sorted types order ordered)

include hs

/-- The bounds at the peers, or at the ends of the partition. -/
theorem edgeBounds_denotes (f : ResolvedFrame) {pos : ℕ} (hpos : pos < ordered.length) :
    Denotes ordered.length (fun i => ∀ row, ordered[i]? = some row → PeerFrame order f ordered[pos] row)
      ((FrameCtx.new ordered order).edgeBounds pos f).1
      ((FrameCtx.new ordered order).edgeBounds pos f).2 := by
  obtain ⟨hstart, hend⟩ := peerEnd_le hs hpos
  unfold FrameCtx.edgeBounds
  dsimp only
  refine denotes_of_edges
    (A := fun i => f.start = .unboundedPreceding ∨ (FrameCtx.new ordered order).peerStart pos ≤ i)
    (B := fun i => f.finish = .unboundedFollowing ∨ i < (FrameCtx.new ordered order).peerEnd pos)
    ?_ ?_ (fun i hi => ?_) (fun i hi _ => ?_) fun i hi => ?_
  · cases f.start <;> first | exact Nat.zero_le _ | exact hstart.trans hpos.le
  · cases f.finish <;> first | exact le_rfl | exact hend
  · cases f.start <;> simp [FrameCtx.edgeLo]
  · cases f.finish <;> simp [FrameCtx.edgeHi, FrameCtx.np, FrameCtx.new, hi]
  · rw [peerStart_le_iff hs hi hpos, lt_peerEnd_iff hs hi hpos]
    simp [List.getElem?_eq_getElem hi, PeerFrame]

omit hs in
theorem inFrame_range {f : ResolvedFrame} (hmode : f.mode = .range) {pos i : ℕ}
    (hpos : pos < ordered.length) (hi : i < ordered.length) :
    InFrame order ordered f pos i ↔ RangeFrame order f ordered[pos] ordered[i] := by
  rw [InFrame, hmode]
  constructor
  · exact fun h => h _ _ (List.getElem?_eq_getElem hpos) (List.getElem?_eq_getElem hi)
  · intro h cur row hcur hrow
    cases (List.getElem?_eq_getElem hpos).symm.trans hcur
    cases (List.getElem?_eq_getElem hi).symm.trans hrow
    exact h

theorem rowsBounds_denote (F : FloatArith) {f : ResolvedFrame} (hf : FrameOk order ordered f)
    (hmode : f.mode = .rows) {pos : ℕ} (hpos : pos < ordered.length) :
    ∃ lo hi, (FrameCtx.new ordered order).bounds F pos (some f) = .ok (lo, hi) ∧
      Denotes ordered.length (InFrame order ordered f pos) lo hi := by
  have hsize := hs.size
  have hrange : f.mode ≠ .range := by
    rw [hmode]
    exact FrameMode.noConfusion
  obtain ⟨x, hx, hlo⟩ := rowsLo_spec (n := ordered.length) (p := pos) (by omega) hf.start
    (hf.counts hrange _ List.mem_cons_self)
  obtain ⟨y, hy, hhi⟩ := rowsHi_spec (n := ordered.length) (p := pos) (by omega) hf.finish
    (hf.counts hrange _ (List.mem_cons_of_mem _ List.mem_cons_self))
  refine ⟨FrameCtx.clamped ordered.length x,
    max (FrameCtx.clamped ordered.length y) (FrameCtx.clamped ordered.length x), ?_, ?_⟩
  · rw [FrameCtx.bounds]
    simp only [hmode]
    rw [FrameCtx.rowsBounds, show (FrameCtx.new ordered order).np = ordered.length from rfl, hx, hy]
    rfl
  · refine denotes_of_edges (clamped_le _ _) (clamped_le _ _) (fun i hi => ?_) (fun i hi _ => ?_)
      fun i _ => by rw [InFrame, hmode]
    · exact (clamped_le_iff hi x).trans (hlo i)
    · exact (lt_clamped_iff hi y).trans (hhi i (by omega))

theorem groupsBounds_denote (F : FloatArith) {f : ResolvedFrame} (hf : FrameOk order ordered f)
    (hmode : f.mode = .groups) {pos : ℕ} (hpos : pos < ordered.length) :
    ∃ lo hi, (FrameCtx.new ordered order).bounds F pos (some f) = .ok (lo, hi) ∧
      Denotes ordered.length (InFrame order ordered f pos) lo hi := by
  have hsize := hs.size
  have hgroup : (FrameCtx.new ordered order).groupOf pos < 2 ^ 63 := by
    have hle := Groups.ordinal_le (cmpWindowRows order) ordered pos
    rw [hs.groupOf hpos]
    omega
  have hrange : f.mode ≠ .range := by
    rw [hmode]
    exact FrameMode.noConfusion
  obtain ⟨lo, hlo, hlon, hstart⟩ := groupsLo_spec hs hgroup hf.start
    (hf.counts hrange _ List.mem_cons_self)
  obtain ⟨hi, hhi, hhin, hfinish⟩ := groupsHi_spec hs hgroup hf.finish
    (hf.counts hrange _ (List.mem_cons_of_mem _ List.mem_cons_self))
  refine ⟨lo, max hi lo, ?_, ?_⟩
  · rw [FrameCtx.bounds]
    simp only [hmode]
    rw [FrameCtx.groupsBounds, hlo, hhi]
    rfl
  · refine denotes_of_edges hlon hhin hstart (fun i hi _ => hfinish i hi) fun i hi => ?_
    rw [InFrame, hmode, hs.groupOf hi, hs.groupOf hpos]

/-- A `RANGE` frame that has no offset to apply is by peers. -/
theorem rangeBounds_edge (F : FloatArith) {f : ResolvedFrame} (hmode : f.mode = .range) {pos : ℕ}
    (hpos : pos < ordered.length)
    (hbounds : (FrameCtx.new ordered order).rangeBounds F pos f =
      .ok ((FrameCtx.new ordered order).edgeBounds pos f))
    (hframe : ∀ row, RangeFrame order f ordered[pos] row ↔ PeerFrame order f ordered[pos] row) :
    ∃ lo hi, (FrameCtx.new ordered order).bounds F pos (some f) = .ok (lo, hi) ∧
      Denotes ordered.length (InFrame order ordered f pos) lo hi := by
  refine ⟨((FrameCtx.new ordered order).edgeBounds pos f).1,
    ((FrameCtx.new ordered order).edgeBounds pos f).2, ?_, ?_⟩
  · rw [FrameCtx.bounds]
    simp only [hmode]
    exact hbounds
  · have h := edgeBounds_denotes hs f hpos
    refine ⟨h.ordered, h.within, fun i => (h.holds i).trans (and_congr_right fun hi => ?_)⟩
    rw [inFrame_range hmode hpos hi, hframe, List.getElem?_eq_getElem hi]
    exact ⟨fun h => h _ rfl, fun h row hrow => by cases hrow; exact h⟩

omit hs in
theorem hasOffset_eq (b : ResolvedBound) : FrameCtx.hasOffset b = b.offset?.isSome := by
  cases b <;> rfl

omit hs in
/-- The bounds of a frame with an offset, of a row whose key is not NULL. -/
theorem bounds_keyed (F : FloatArith) {key : SortKey} {f : ResolvedFrame} (hmode : f.mode = .range)
    (hoffset : f.start.offset?.isSome = true ∨ f.finish.offset?.isSome = true) {pos : ℕ}
    (hpos : pos < ordered.length) (hcur : slotValue ordered[pos].2 key ≠ .null) :
    (FrameCtx.new ordered [key]).bounds F pos (some f) =
      ((FrameCtx.new ordered [key]).rangeLo F key (slotValue ordered[pos].2 key) pos f.start).bind
        fun lo => ((FrameCtx.new ordered [key]).rangeHi F key (slotValue ordered[pos].2 key) pos lo
          f.finish).map fun hi => (lo, max hi lo) := by
  have hoff : ¬(!FrameCtx.hasOffset f.start && !FrameCtx.hasOffset f.finish) = true := by
    rw [hasOffset_eq, hasOffset_eq]
    rcases hoffset with h | h <;> simp [h]
  have hrow : (FrameCtx.new ordered [key]).ordered[pos]? = some ordered[pos] :=
    List.getElem?_eq_getElem hpos
  rw [FrameCtx.bounds]
  simp only [hmode]
  rw [FrameCtx.rangeBounds, if_neg hoff, hrow]
  simp only [FrameCtx.new]
  rfl

omit hs in
theorem rangeLo_exists (F : FloatArith) {key : SortKey} {kind : NumKind} (ordered : List Entry)
    (hrows : ∀ e ∈ ordered, slotValue e.2 key = .null ∨ kind.Is (slotValue e.2 key)) {cur : Value}
    (hcur : kind.Is cur) {b : ResolvedBound} (hoff : ∀ off, b.offset? = some off → kind.Is off)
    (hb : BoundOk key cur b) (pos : ℕ) :
    ∃ lo, (FrameCtx.new ordered [key]).rangeLo F key cur pos b = .ok lo := by
  cases b with
  | preceding off =>
    refine rangeStartFrom_exists hcur (hoff off rfl) (fun c o hc ho => ?_) hrows
    subst hc ho
    have hsum := hb c rfl
    cases hdesc : key.descending <;> simpa [hdesc] using hsum
  | following off =>
    refine rangeStartFrom_exists hcur (hoff off rfl) (fun c o hc ho => ?_) hrows
    subst hc ho
    have hsum := hb c rfl
    cases hdesc : key.descending <;> simpa [hdesc] using hsum
  | _ => exact ⟨_, rfl⟩

omit hs in
theorem rangeHi_exists (F : FloatArith) {key : SortKey} {kind : NumKind} (ordered : List Entry)
    (hrows : ∀ e ∈ ordered, slotValue e.2 key = .null ∨ kind.Is (slotValue e.2 key)) {cur : Value}
    (hcur : kind.Is cur) {b : ResolvedBound} (hoff : ∀ off, b.offset? = some off → kind.Is off)
    (hb : BoundOk key cur b) (pos lo : ℕ) :
    ∃ hi, (FrameCtx.new ordered [key]).rangeHi F key cur pos lo b = .ok hi := by
  cases b with
  | preceding off =>
    refine rangeEndFrom_exists hcur (hoff off rfl) (fun c o hc ho => ?_)
      fun e he => hrows e (List.mem_of_mem_drop he)
    subst hc ho
    have hsum := hb c rfl
    cases hdesc : key.descending <;> simpa [hdesc] using hsum
  | following off =>
    refine rangeEndFrom_exists hcur (hoff off rfl) (fun c o hc ho => ?_)
      fun e he => hrows e (List.mem_of_mem_drop he)
    subst hc ho
    have hsum := hb c rfl
    cases hdesc : key.descending <;> simpa [hdesc] using hsum
  | _ => exact ⟨_, rfl⟩

/-- A `RANGE` frame by the values of the one key. -/
theorem rangeBounds_keyed (F : FloatArith) {key : SortKey} {kind : NumKind} {f : ResolvedFrame}
    (horder : order = [key]) (hf : FrameOk order ordered f) (hmode : f.mode = .range)
    (hoffset : f.start.offset?.isSome = true ∨ f.finish.offset?.isSome = true)
    (hcoll : key.coll = none)
    (hoffs : ∀ b ∈ [f.start, f.finish], ∀ off, b.offset? = some off → kind.Is off)
    (hrows : ∀ e ∈ ordered, slotValue e.2 key = .null ∨ kind.Is (slotValue e.2 key)) {pos : ℕ}
    (hpos : pos < ordered.length) (hcur : kind.Is (slotValue ordered[pos].2 key)) :
    (∀ lo hi, (FrameCtx.new ordered order).bounds F pos (some f) = .ok (lo, hi) →
        Denotes ordered.length (InFrame order ordered f pos) lo hi) ∧
      (BoundOk key (slotValue ordered[pos].2 key) f.start →
        BoundOk key (slotValue ordered[pos].2 key) f.finish →
        ∃ lo hi, (FrameCtx.new ordered order).bounds F pos (some f) = .ok (lo, hi)) := by
  subst horder
  rw [bounds_keyed F hmode hoffset hpos hcur.ne_null]
  have hin := hoffs _ List.mem_cons_self
  have hout := hoffs _ (List.mem_cons_of_mem _ List.mem_cons_self)
  constructor
  · intro lo hi h
    obtain ⟨lo, hlo, h⟩ := bind_eq_ok.mp h
    obtain ⟨hi, hhi, h⟩ := map_eq_ok.mp h
    cases h
    obtain ⟨hlon, hstart⟩ := rangeLo_spec hs hcoll hrows hpos hcur hf.start hin hlo
    obtain ⟨hhin, hfinish⟩ := rangeHi_spec hs hcoll hrows hpos hcur hf.finish hout hlon hhi
    refine denotes_of_edges hlon hhin (fun i hi => hstart i ordered[i]! ?_)
      (fun i hi hle => hfinish i ordered[i]! hle ?_) fun i hi => ?_
    · rw [getElem!_pos ordered i hi]
      exact List.getElem?_eq_getElem hi
    · rw [getElem!_pos ordered i hi]
      exact List.getElem?_eq_getElem hi
    · rw [inFrame_range hmode hpos hi, getElem!_pos ordered i hi, ← keyFrame_iff]
      exact ⟨fun h => h.1 ⟨hoffset, hcur.ne_null⟩,
        fun h => ⟨fun _ => h, fun hnot => absurd ⟨hoffset, hcur.ne_null⟩ hnot⟩⟩
  · intro hstart hfinish
    obtain ⟨lo, hlo⟩ := rangeLo_exists F ordered hrows hcur hin hstart pos
    obtain ⟨hi, hhi⟩ := rangeHi_exists F ordered hrows hcur hout hfinish pos lo
    exact ⟨lo, max hi lo, by rw [hlo, Except.bind, hhi, Except.map]⟩

omit hs in
theorem rangeFrame_of_noOffset {f : ResolvedFrame} (hstart : f.start.offset?.isSome = false)
    (hfinish : f.finish.offset?.isSome = false) (cur row : Entry) :
    RangeFrame order f cur row ↔ PeerFrame order f cur row := by
  unfold RangeFrame
  split
  · simp [hstart, hfinish]
  · exact Iff.rfl

omit hs in
theorem rangeFrame_of_null {key : SortKey} {f : ResolvedFrame} {cur : Entry}
    (hcur : slotValue cur.2 key = .null) (row : Entry) :
    RangeFrame [key] f cur row ↔ PeerFrame [key] f cur row := by
  rw [RangeFrame]
  simp [hcur]

omit hs in
theorem only_bounds {r : Except Failure (ℕ × ℕ)} {P : Prop} {Q : ℕ → ℕ → Prop}
    (h : ∃ lo hi, r = .ok (lo, hi) ∧ Q lo hi) :
    (∀ lo hi, r = .ok (lo, hi) → Q lo hi) ∧ (P → ∃ lo hi, r = .ok (lo, hi)) := by
  obtain ⟨lo, hi, rfl, hQ⟩ := h
  refine ⟨fun lo hi heq => ?_, fun _ => ⟨lo, hi, rfl⟩⟩
  cases heq
  exact hQ

theorem rangeBounds_denote (F : FloatArith) {f : ResolvedFrame} (hf : FrameOk order ordered f)
    (hmode : f.mode = .range) {pos : ℕ} (hpos : pos < ordered.length) :
    (∀ lo hi, (FrameCtx.new ordered order).bounds F pos (some f) = .ok (lo, hi) →
        Denotes ordered.length (InFrame order ordered f pos) lo hi) ∧
      ((∀ key, order = [key] → ∀ b ∈ [f.start, f.finish],
          BoundOk key (slotValue ordered[pos].2 key) b) →
        ∃ lo hi, (FrameCtx.new ordered order).bounds F pos (some f) = .ok (lo, hi)) := by
  by_cases hoffset : f.start.offset?.isSome = true ∨ f.finish.offset?.isSome = true
  · have hsome : ∃ b ∈ [f.start, f.finish], b.offset?.isSome = true := by
      simpa using hoffset
    obtain ⟨key, kind, rfl, hcoll, hoffs, hrows⟩ := hf.numbers hmode hsome
    by_cases hnull : slotValue ordered[pos].2 key = .null
    · refine only_bounds (rangeBounds_edge hs F hmode hpos ?_ (rangeFrame_of_null hnull))
      rw [FrameCtx.rangeBounds]
      split
      · rfl
      · rw [show (FrameCtx.new ordered [key]).ordered[pos]? = some ordered[pos] from
          List.getElem?_eq_getElem hpos]
        simp only [FrameCtx.new, hnull]
    · have hcur := (hrows _ (List.getElem_mem hpos)).resolve_left hnull
      obtain ⟨hdenotes, hexists⟩ :=
        rangeBounds_keyed hs F rfl hf hmode hoffset hcoll hoffs hrows hpos hcur
      exact ⟨hdenotes, fun h => hexists (h key rfl _ List.mem_cons_self)
        (h key rfl _ (List.mem_cons_of_mem _ List.mem_cons_self))⟩
  · rw [not_or, Bool.not_eq_true, Bool.not_eq_true] at hoffset
    refine only_bounds (rangeBounds_edge hs F hmode hpos ?_ (rangeFrame_of_noOffset hoffset.1 hoffset.2 _))
    rw [FrameCtx.rangeBounds, hasOffset_eq, hasOffset_eq, hoffset.1, hoffset.2]
    rfl

/-- The bounds of a row of a sorted partition are those of its frame, for every frame that resolves over
    positions, over groups, over peers, and over integer or decimal keys; and there are bounds, unless a
    decimal bound is beyond the cap. -/
theorem bounds_denote (F : FloatArith) {pos : ℕ} (hpos : pos < ordered.length) :
    (∃ hi, (FrameCtx.new ordered order).bounds F pos none = .ok (0, hi) ∧
      Denotes ordered.length
        (fun i => ∀ row, ordered[i]? = some row → cmpWindowRows order row ordered[pos] ≠ .gt) 0 hi) ∧
      ∀ f, FrameOk order ordered f →
        (∀ lo hi, (FrameCtx.new ordered order).bounds F pos (some f) = .ok (lo, hi) →
          Denotes ordered.length (InFrame order ordered f pos) lo hi) ∧
        ((∀ key, order = [key] → ∀ b ∈ [f.start, f.finish],
            BoundOk key (slotValue ordered[pos].2 key) b) →
          ∃ lo hi, (FrameCtx.new ordered order).bounds F pos (some f) = .ok (lo, hi)) := by
  refine ⟨⟨_, rfl, Nat.zero_le _, (peerEnd_le hs hpos).2, fun i => ?_⟩, fun f hf => ?_⟩
  · constructor
    · rintro ⟨-, hlt⟩
      have hi := hlt.trans_le (peerEnd_le hs hpos).2
      refine ⟨hi, fun row hrow => ?_⟩
      cases (List.getElem?_eq_getElem hi).symm.trans hrow
      exact (lt_peerEnd_iff hs hi hpos).mp hlt
    · rintro ⟨hi, hrow⟩
      exact ⟨Nat.zero_le _, (lt_peerEnd_iff hs hi hpos).mpr (hrow _ (List.getElem?_eq_getElem hi))⟩
  · cases hmode : f.mode with
    | rows => exact only_bounds (rowsBounds_denote hs F hf hmode hpos)
    | groups => exact only_bounds (groupsBounds_denote hs F hf hmode hpos)
    | range => exact rangeBounds_denote hs F hf hmode hpos

end

/-- Ascending order of an integer or decimal. -/
def byNumber : SortKey := ⟨0, false, false, none⟩

/-- From the current row to its key and 1. -/
def upToOneMore (one : Value) : ResolvedFrame := ⟨.range, .currentRow, .following one, .noOthers⟩

/-- Of the keys 1, 2, 4 and NULL, the first frame has the first two. -/
theorem bounds_denote_next :
    Denotes 4 (InFrame [byNumber] [([], [.int 1]), ([], [.int 2]), ([], [.int 4]),
      ([], [.null])] (upToOneMore (.int 1)) 0) 0 2 := by
  have hone : ∀ n, IsI64 n → NumKind.Is .int (.int n) := fun _ h => h
  have hsorted : Sorted (fun _ => .scalar .int64) [byNumber]
      [([], [.int 1]), ([], [.int 2]), ([], [.int 4]), ([], [.null])] := by
    refine ⟨by decide, fun e he => ?_, by decide⟩
    simp only [List.mem_cons, List.not_mem_nil, or_false] at he
    rcases he with rfl | rfl | rfl | rfl <;> refine ⟨fun k hk => ?_, rfl⟩ <;>
      cases List.mem_singleton.mp hk
    · exact .inr trivial
    · exact .inr trivial
    · exact .inr trivial
    · exact .inl rfl
  have hframe : FrameOk [byNumber]
      [([], [.int 1]), ([], [.int 2]), ([], [.int 4]), ([], [.null])]
      (upToOneMore (.int 1)) := by
    refine ⟨ResolvedBound.noConfusion, ResolvedBound.noConfusion, fun h => absurd rfl h,
      fun _ _ => ⟨byNumber, .int, rfl, rfl, fun b hb off hoff => ?_, fun e he => ?_⟩⟩
    · simp only [upToOneMore, List.mem_cons, List.not_mem_nil, or_false] at hb
      rcases hb with rfl | rfl <;> cases hoff
      exact hone 1 (by decide)
    · simp only [List.mem_cons, List.not_mem_nil, or_false] at he
      rcases he with rfl | rfl | rfl | rfl
      · exact .inr (hone 1 (by decide))
      · exact .inr (hone 2 (by decide))
      · exact .inr (hone 4 (by decide))
      · exact .inl rfl
  exact ((bounds_denote hsorted ⟨fun _ => 0, fun x _ => x, fun x _ => x⟩ (Nat.zero_lt_succ 3)).2 _
    hframe).1 0 2 (by rfl)

/-- The greatest decimal without a fraction. -/
def greatest : Decimal := ⟨false, 0, 10 ^ Decimal.maxIntDigits - 1, Bool.noConfusion⟩

theorem greatest_add_one : ∃ e, greatest.add ⟨false, 0, 1, Bool.noConfusion⟩ = .error e := by
  have hcoeff : greatest.coeff = 10 ^ Decimal.maxIntDigits - 1 := by unfold greatest; rfl
  have hone : (⟨false, 0, 1, Bool.noConfusion⟩ : Decimal).coeff = 1 := rfl
  refine Decimal.add_beyond ⟨rfl, rfl⟩ ⟨rfl, rfl⟩ ?_
  rw [hcoeff, hone]
  exact le_tsub_add

/-- A row whose key has no decimal one above it has no frame up to there. -/
theorem no_bounds_of_add {d : Decimal} (hadd : ∃ e, d.add ⟨false, 0, 1, Bool.noConfusion⟩ = .error e)
    (F : FloatArith) :
    Sorted (fun _ => .scalar .decimal) [byNumber] [([], [.decimal d])] ∧
      FrameOk [byNumber] [([], [.decimal d])]
        (upToOneMore (.decimal ⟨false, 0, 1, Bool.noConfusion⟩)) ∧
      ∀ lo hi, (FrameCtx.new [([], [.decimal d])] [byNumber]).bounds F 0
        (some (upToOneMore (.decimal ⟨false, 0, 1, Bool.noConfusion⟩))) ≠ .ok (lo, hi) := by
  refine ⟨⟨(by decide : 1 < 2 ^ 63), fun e he => ?_, List.pairwise_singleton _ _⟩,
    ⟨ResolvedBound.noConfusion, ResolvedBound.noConfusion, fun h => absurd rfl h,
      fun _ _ => ⟨byNumber, .decimal, rfl, rfl, fun b hb off hoff => ?_, fun e he => ?_⟩⟩,
    fun lo hi hbounds => ?_⟩
  · cases List.mem_singleton.mp he
    refine ⟨fun k hk => ?_, rfl⟩
    cases List.mem_singleton.mp hk
    exact .inr trivial
  · simp only [upToOneMore, List.mem_cons, List.not_mem_nil, or_false] at hb
    rcases hb with rfl | rfl <;> cases hoff
    trivial
  · cases List.mem_singleton.mp he
    exact .inr trivial
  · obtain ⟨e, he⟩ := hadd
    have hcur : slotValue [Value.decimal d] byNumber ≠ .null := Value.noConfusion
    rw [@bounds_keyed [([], [.decimal d])] _ _ _ rfl (.inr rfl) 0 (Nat.zero_lt_succ 0) hcur] at hbounds
    obtain ⟨lo, hlo, hbounds⟩ := bind_eq_ok.mp hbounds
    obtain ⟨hi, hhi, -⟩ := map_eq_ok.mp hbounds
    cases hlo
    -- the scan for the end starts at the row itself
    change rangeEndFrom _ byNumber (.decimal d) (.decimal ⟨false, 0, 1, _⟩) false 0 0
      [([], [.decimal d])] = .ok hi at hhi
    rw [rangeEndFrom, show slotValue [Value.decimal d] byNumber = .decimal d from rfl] at hhi
    obtain ⟨ord, hord, -⟩ := bind_eq_ok.mp hhi
    rw [rangeVVsBound] at hord
    simp [he, Except.map] at hord

/-- The greatest decimal has no bound one above it, and its row has no frame. -/
theorem not_always_bounds :
    ¬∀ (types : ℕ → ColType) (order : List SortKey) (ordered : List Entry) (F : FloatArith)
      (f : ResolvedFrame) (pos : ℕ), Sorted types order ordered → FrameOk order ordered f →
      pos < ordered.length →
      ∃ lo hi, (FrameCtx.new ordered order).bounds F pos (some f) = .ok (lo, hi) := by
  intro h
  obtain ⟨hsorted, hframe, hnone⟩ :=
    no_bounds_of_add greatest_add_one ⟨fun _ => 0, fun x _ => x, fun x _ => x⟩
  obtain ⟨lo, hi, hbounds⟩ := h _ _ _ ⟨fun _ => 0, fun x _ => x, fun x _ => x⟩ _ 0 hsorted hframe
    (Nat.zero_lt_succ 0)
  exact hnone lo hi hbounds

end Jed.Window
