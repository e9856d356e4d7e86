import Jed.Sorts.Order
import Jed.Value.DecimalSum
import Jed.Window.Frame

/-!
# What a frame holds

The frame of a row is an interval of positions: by position, by the ordinal of the peer group, or by the
value of the key.
-/

namespace Jed.Window

open Compare Key KeyCodes Results Sorts

/-- A row of the types of its slots, with its sort keys. -/
def Keyed (types : Nat → ColType) (order : List SortKey) (e : Entry) : Prop :=
  RowTyped types order e.2 ∧ collationKeysForRow e.2 order = .ok e.1

/-- A partition as the window stage sorts it. -/
structure Sorted (types : Nat → ColType) (order : List SortKey) (ordered : List Entry) : Prop where
  size : ordered.length < 2 ^ 63
  keyed : ∀ e ∈ ordered, Keyed types order e
  sorted : ordered.Pairwise fun a b => cmpWindowRows order a b ≠ .gt

theorem totalOn_cmpWindowRows (types : ℕ → ColType) (order : List SortKey) :
    TotalOn (Keyed types order) (cmpWindowRows order) := by
  have horder := (totalOn_orderCmp types order).comap (Prod.snd : Entry → List Value)
  exact (horder.mono fun e he => he.1).congr fun a b ha hb => cmpDecoratedParts_eq ha.2 hb.2

/-- The offset of a bound. -/
def ResolvedBound.offset? : ResolvedBound → Option Value
  | .preceding off | .following off => some off
  | _ => none

/-- A number. -/
inductive NumKind where
  | int
  | decimal

/-- The values of an `i64`. -/
def IsI64 (n : Int) : Prop := -2 ^ 63 ≤ n ∧ n < 2 ^ 63

instance (n : Int) : Decidable (IsI64 n) := inferInstanceAs (Decidable (_ ∧ _))

/-- A value is a number of a kind. -/
def NumKind.Is : NumKind → Value → Prop
  | .int, .int n => IsI64 n
  | .decimal, .decimal _ => True
  | _, _ => False

/-- The number that a value is. -/
def numOf : Value → ℚ
  | .int n => n
  | .decimal d => d.toRat
  | _ => 0

/-- The frames that resolve, over keys that are integers or decimals where a `RANGE` has an offset. -/
structure FrameOk (order : List SortKey) (ordered : List Entry) (f : ResolvedFrame) : Prop where
  start : f.start ≠ .unboundedFollowing
  finish : f.finish ≠ .unboundedPreceding
  counts : f.mode ≠ .range → ∀ b ∈ [f.start, f.finish], ∀ off, b.offset? = some off →
    ∃ k, off = .int k ∧ IsI64 k
  numbers : f.mode = .range → (∃ b ∈ [f.start, f.finish], b.offset?.isSome = true) →
    ∃ key kind, order = [key] ∧ key.coll = none ∧
      (∀ b ∈ [f.start, f.finish], ∀ off, b.offset? = some off → NumKind.Is kind off) ∧
      ∀ e ∈ ordered, slotValue e.2 key = .null ∨ NumKind.Is kind (slotValue e.2 key)

/-- A count of positions or groups, at or after the start of a frame. -/
def CountStart (p x : Int) : ResolvedBound → Prop
  | .unboundedPreceding => True
  | .preceding (.int k) => p - k ≤ x
  | .currentRow => p ≤ x
  | .following (.int k) => p + k ≤ x
  | _ => False

/-- A count of positions or groups, at or before the end of a frame. -/
def CountFinish (p x : Int) : ResolvedBound → Prop
  | .preceding (.int k) => x ≤ p - k
  | .currentRow => x ≤ p
  | .following (.int k) => x ≤ p + k
  | .unboundedFollowing => True
  | _ => False

/-- A key that is not NULL, at or after the start of a frame, in the direction of the order. -/
def KeyStart (key : SortKey) (cur v : Value) : ResolvedBound → Prop
  | .unboundedPreceding => True
  | .preceding off =>
    if key.descending then numOf v ≤ numOf cur + numOf off else numOf cur - numOf off ≤ numOf v
  | .currentRow => if key.descending then numOf v ≤ numOf cur else numOf cur ≤ numOf v
  | .following off =>
    if key.descending then numOf v ≤ numOf cur - numOf off else numOf cur + numOf off ≤ numOf v
  | .unboundedFollowing => False

/-- A key that is not NULL, at or before the end of a frame, in the direction of the order. -/
def KeyFinish (key : SortKey) (cur v : Value) : ResolvedBound → Prop
  | .unboundedPreceding => False
  | .preceding off =>
    if key.descending then numOf cur + numOf off ≤ numOf v else numOf v ≤ numOf cur - numOf off
  | .currentRow => if key.descending then numOf cur ≤ numOf v else numOf v ≤ numOf cur
  | .following off =>
    if key.descending then numOf cur - numOf off ≤ numOf v else numOf v ≤ numOf cur + numOf off
  | .unboundedFollowing => True

/-- A row in the frame of another, by peers: a bound that is not unbounded is at the peers. -/
def PeerFrame (order : List SortKey) (f : ResolvedFrame) (cur row : Entry) : Prop :=
  (f.start = .unboundedPreceding ∨ cmpWindowRows order row cur ≠ .lt) ∧
    (f.finish = .unboundedFollowing ∨ cmpWindowRows order row cur ≠ .gt)

/-- A row in the frame of another, by the values of the key: a row whose key is NULL is in where the
    bound on its side is unbounded. -/
def KeyFrame (key : SortKey) (f : ResolvedFrame) (cur row : Entry) : Prop :=
  match slotValue row.2 key with
  | .null => if key.nullsFirst then f.start = .unboundedPreceding else f.finish = .unboundedFollowing
  | v => KeyStart key (slotValue cur.2 key) v f.start ∧ KeyFinish key (slotValue cur.2 key) v f.finish

/-- A row in the `RANGE` frame of another: by the key where a bound has an offset and the key of the
    current row is not NULL, and else by peers. -/
def RangeFrame (order : List SortKey) (f : ResolvedFrame) (cur row : Entry) : Prop :=
  match order with
  | [key] =>
    ((f.start.offset?.isSome = true ∨ f.finish.offset?.isSome = true) ∧ slotValue cur.2 key ≠ .null →
        KeyFrame key f cur row) ∧
      (¬((f.start.offset?.isSome = true ∨ f.finish.offset?.isSome = true) ∧
        slotValue cur.2 key ≠ .null) → PeerFrame order f cur row)
  | _ => PeerFrame order f cur row

/-- The frame of a row of a sorted partition. -/
def InFrame (order : List SortKey) (ordered : List Entry) (f : ResolvedFrame) (pos i : Nat) : Prop :=
  match f.mode with
  | .rows => CountStart pos i f.start ∧ CountFinish pos i f.finish
  | .groups =>
    CountStart (Groups.ordinal (cmpWindowRows order) ordered pos)
        (Groups.ordinal (cmpWindowRows order) ordered i) f.start ∧
      CountFinish (Groups.ordinal (cmpWindowRows order) ordered pos)
        (Groups.ordinal (cmpWindowRows order) ordered i) f.finish
  | .range => ∀ cur row, ordered[pos]? = some cur → ordered[i]? = some row → RangeFrame order f cur row

/-- `lo` and `hi` bound the positions of a frame. -/
structure Denotes (n : ℕ) (P : ℕ → Prop) (lo hi : ℕ) : Prop where
  ordered : lo ≤ hi
  within : hi ≤ n
  holds : ∀ i, lo ≤ i ∧ i < hi ↔ i < n ∧ P i

theorem denotes_of_edges {n lo hi : ℕ} {P A B : ℕ → Prop} (hlo : lo ≤ n) (hhi : hi ≤ n)
    (hstart : ∀ i, i < n → (lo ≤ i ↔ A i)) (hfinish : ∀ i, i < n → lo ≤ i → (i < hi ↔ B i))
    (hP : ∀ i, i < n → (P i ↔ A i ∧ B i)) : Denotes n P lo (max hi lo) where
  ordered := le_max_right hi lo
  within := max_le hhi hlo
  holds i := by
    constructor
    · rintro ⟨hloi, hhii⟩
      have hi' : i < hi := (lt_max_iff.mp hhii).resolve_right (not_lt.mpr hloi)
      have hn : i < n := hi'.trans_le hhi
      exact ⟨hn, (hP i hn).mpr ⟨(hstart i hn).mp hloi, (hfinish i hn hloi).mp hi'⟩⟩
    · rintro ⟨hn, h⟩
      obtain ⟨hA, hB⟩ := (hP i hn).mp h
      have hloi := (hstart i hn).mpr hA
      exact ⟨hloi, lt_max_of_lt_left ((hfinish i hn hloi).mpr hB)⟩

theorem wide_eq {x : ℤ} (h : -2 ^ 127 ≤ x ∧ x < 2 ^ 127) : wide x = .ok x := if_pos h

@[simp] theorem offsetCount_int (k : ℤ) : offsetCount (.int k) = .ok k := rfl

@[simp] theorem ok_bind {β γ : Type} (x : β) (g : β → Except Failure γ) : (Except.ok x >>= g) = g x := rfl

theorem clamped_le (n : ℕ) (x : ℤ) : FrameCtx.clamped n x ≤ n := by
  unfold FrameCtx.clamped
  omega

theorem clamped_le_iff {n i : ℕ} (hi : i < n) (x : ℤ) : FrameCtx.clamped n x ≤ i ↔ x ≤ i := by
  unfold FrameCtx.clamped
  omega

theorem lt_clamped_iff {n i : ℕ} (hi : i < n) (x : ℤ) : i < FrameCtx.clamped n x ↔ i < x := by
  unfold FrameCtx.clamped
  omega

theorem rowsLo_spec {p n : ℤ} (hp : 0 ≤ p ∧ p < 2 ^ 63) {b : ResolvedBound}
    (hb : b ≠ .unboundedFollowing)
    (hoff : ∀ off, b.offset? = some off → ∃ k, off = .int k ∧ IsI64 k) :
    ∃ x, FrameCtx.rowsLo p n b = .ok x ∧ ∀ i : ℕ, x ≤ i ↔ CountStart p i b := by
  cases b with
  | unboundedPreceding => exact ⟨0, rfl, fun i => iff_of_true (Int.natCast_nonneg i) trivial⟩
  | preceding off =>
    obtain ⟨k, rfl, hk⟩ := hoff off rfl
    unfold IsI64 at hk
    refine ⟨p - k, ?_, fun i => Iff.rfl⟩
    rw [FrameCtx.rowsLo, offsetCount_int, ok_bind, wide_eq (by omega)]
  | currentRow => exact ⟨p, rfl, fun i => Iff.rfl⟩
  | following off =>
    obtain ⟨k, rfl, hk⟩ := hoff off rfl
    unfold IsI64 at hk
    refine ⟨p + k, ?_, fun i => Iff.rfl⟩
    rw [FrameCtx.rowsLo, offsetCount_int, ok_bind, wide_eq (by omega)]
  | unboundedFollowing => exact absurd rfl hb

theorem rowsHi_spec {p n : ℤ} (hp : 0 ≤ p ∧ p < 2 ^ 63) {b : ResolvedBound}
    (hb : b ≠ .unboundedPreceding)
    (hoff : ∀ off, b.offset? = some off → ∃ k, off = .int k ∧ IsI64 k) :
    ∃ x, FrameCtx.rowsHi p n b = .ok x ∧ ∀ i : ℕ, (i : ℤ) < n → (i < x ↔ CountFinish p i b) := by
  cases b with
  | unboundedPreceding => exact absurd rfl hb
  | preceding off =>
    obtain ⟨k, rfl, hk⟩ := hoff off rfl
    unfold IsI64 at hk
    refine ⟨p - k + 1, ?_, fun i _ => Int.lt_add_one_iff⟩
    rw [FrameCtx.rowsHi, offsetCount_int, ok_bind, wide_eq (by omega), ok_bind, wide_eq (by omega)]
  | currentRow =>
    exact ⟨p + 1, wide_eq (by omega), fun i _ => Int.lt_add_one_iff⟩
  | following off =>
    obtain ⟨k, rfl, hk⟩ := hoff off rfl
    unfold IsI64 at hk
    refine ⟨p + k + 1, ?_, fun i _ => Int.lt_add_one_iff⟩
    rw [FrameCtx.rowsHi, offsetCount_int, ok_bind, wide_eq (by omega), ok_bind, wide_eq (by omega)]
  | unboundedFollowing => exact ⟨n, rfl, fun i hi => iff_of_true hi trivial⟩

section

variable {types : ℕ → ColType} {order : List SortKey} {ordered : List Entry}

theorem Sorted.located (h : Sorted types order ordered) :
    Groups.Located (cmpWindowRows order) 0 ordered (FrameCtx.new ordered order).groupSpans :=
  Groups.located_spans (totalOn_cmpWindowRows types order) h.keyed h.sorted

theorem Sorted.groupOf (h : Sorted types order ordered) {i : ℕ} (hi : i < ordered.length) :
    (FrameCtx.new ordered order).groupOf i = Groups.ordinal (cmpWindowRows order) ordered i :=
  Groups.locate_eq_ordinal (totalOn_cmpWindowRows types order) h.keyed h.sorted hi

theorem startAt_le (h : Sorted types order ordered) (j : ℤ) :
    (FrameCtx.new ordered order).startAt j ≤ ordered.length := by
  unfold FrameCtx.startAt
  split
  · exact Nat.zero_le _
  · split
    · rename_i span hspan
      have hwithin := h.located.within _ _ hspan
      omega
    · exact le_rfl

theorem endAt_le (h : Sorted types order ordered) (j : ℤ) :
    (FrameCtx.new ordered order).endAt j ≤ ordered.length := by
  unfold FrameCtx.endAt
  split
  · exact Nat.zero_le _
  · split
    · rename_i span hspan
      have hwithin := h.located.within _ _ hspan
      omega
    · exact le_rfl

theorem startAt_le_iff (h : Sorted types order ordered) {i : ℕ} (hi : i < ordered.length) (j : ℤ) :
    (FrameCtx.new ordered order).startAt j ≤ i ↔ j ≤ (FrameCtx.new ordered order).groupOf i := by
  have hlt := (List.getElem?_eq_some_iff.mp (h.located.here i hi)).1
  rw [Nat.zero_add] at hlt
  unfold FrameCtx.startAt FrameCtx.groupOf
  split
  · exact iff_of_true (Nat.zero_le _) (by omega)
  · split
    · rename_i span hspan
      have hstart := h.located.start i _ _ hi hspan
      rw [Nat.zero_add] at hstart
      rw [hstart]
      omega
    · rename_i hnone
      have hlen := List.getElem?_eq_none_iff.mp hnone
      refine iff_of_false (not_le.mpr hi) ?_
      omega

theorem lt_endAt_iff (h : Sorted types order ordered) {i : ℕ} (hi : i < ordered.length) (j : ℤ) :
    i < (FrameCtx.new ordered order).endAt j ↔ (FrameCtx.new ordered order).groupOf i ≤ j := by
  have hlt := (List.getElem?_eq_some_iff.mp (h.located.here i hi)).1
  rw [Nat.zero_add] at hlt
  unfold FrameCtx.endAt FrameCtx.groupOf
  split
  · exact iff_of_false (Nat.not_lt_zero _) (by omega)
  · split
    · rename_i span hspan
      have hfinish := h.located.finish i _ _ hi hspan
      rw [Nat.zero_add] at hfinish
      rw [hfinish]
      omega
    · rename_i hnone
      have hlen := List.getElem?_eq_none_iff.mp hnone
      exact iff_of_true hi (by omega)

theorem groupsLo_spec (h : Sorted types order ordered) {cg : ℕ} (hcg : cg < 2 ^ 63) {b : ResolvedBound}
    (hb : b ≠ .unboundedFollowing)
    (hoff : ∀ off, b.offset? = some off → ∃ k, off = .int k ∧ IsI64 k) :
    ∃ lo, (FrameCtx.new ordered order).groupsLo cg b = .ok lo ∧ lo ≤ ordered.length ∧
      ∀ i, i < ordered.length → (lo ≤ i ↔ CountStart cg ((FrameCtx.new ordered order).groupOf i) b) := by
  cases b with
  | unboundedPreceding =>
    exact ⟨0, rfl, Nat.zero_le _, fun i _ => iff_of_true (Nat.zero_le _) trivial⟩
  | preceding off =>
    obtain ⟨k, rfl, hk⟩ := hoff off rfl
    unfold IsI64 at hk
    refine ⟨(FrameCtx.new ordered order).startAt (cg - k), ?_, startAt_le h _,
      fun i hi => startAt_le_iff h hi _⟩
    rw [FrameCtx.groupsLo, offsetCount_int, ok_bind, wide_eq (by omega)]
    rfl
  | currentRow =>
    exact ⟨(FrameCtx.new ordered order).startAt cg, rfl, startAt_le h _, fun i hi => startAt_le_iff h hi _⟩
  | following off =>
    obtain ⟨k, rfl, hk⟩ := hoff off rfl
    unfold IsI64 at hk
    refine ⟨(FrameCtx.new ordered order).startAt (cg + k), ?_, startAt_le h _,
      fun i hi => startAt_le_iff h hi _⟩
    rw [FrameCtx.groupsLo, offsetCount_int, ok_bind, wide_eq (by omega)]
    rfl
  | unboundedFollowing => exact absurd rfl hb

theorem groupsHi_spec (h : Sorted types order ordered) {cg : ℕ} (hcg : cg < 2 ^ 63) {b : ResolvedBound}
    (hb : b ≠ .unboundedPreceding)
    (hoff : ∀ off, b.offset? = some off → ∃ k, off = .int k ∧ IsI64 k) :
    ∃ hi, (FrameCtx.new ordered order).groupsHi cg b = .ok hi ∧ hi ≤ ordered.length ∧
      ∀ i, i < ordered.length →
        (i < hi ↔ CountFinish cg ((FrameCtx.new ordered order).groupOf i) b) := by
  cases b with
  | unboundedPreceding => exact absurd rfl hb
  | preceding off =>
    obtain ⟨k, rfl, hk⟩ := hoff off rfl
    unfold IsI64 at hk
    refine ⟨(FrameCtx.new ordered order).endAt (cg - k), ?_, endAt_le h _,
      fun i hi => lt_endAt_iff h hi _⟩
    rw [FrameCtx.groupsHi, offsetCount_int, ok_bind, wide_eq (by omega)]
    rfl
  | currentRow =>
    exact ⟨(FrameCtx.new ordered order).endAt cg, rfl, endAt_le h _, fun i hi => lt_endAt_iff h hi _⟩
  | following off =>
    obtain ⟨k, rfl, hk⟩ := hoff off rfl
    unfold IsI64 at hk
    refine ⟨(FrameCtx.new ordered order).endAt (cg + k), ?_, endAt_le h _,
      fun i hi => lt_endAt_iff h hi _⟩
    rw [FrameCtx.groupsHi, offsetCount_int, ok_bind, wide_eq (by omega)]
    rfl
  | unboundedFollowing => exact ⟨_, rfl, le_rfl, fun i hi => iff_of_true hi trivial⟩

theorem peerStart_le_iff (h : Sorted types order ordered) {i pos : ℕ} (hi : i < ordered.length)
    (hpos : pos < ordered.length) :
    (FrameCtx.new ordered order).peerStart pos ≤ i ↔ cmpWindowRows order ordered[i] ordered[pos] ≠ .lt := by
  have hhere := h.located.here pos hpos
  rw [Nat.zero_add] at hhere
  have hstart := h.located.start i _ _ hi hhere
  rw [Nat.zero_add] at hstart
  rw [FrameCtx.peerStart, hstart]
  constructor
  · intro hle hlt
    rcases Nat.lt_or_eq_of_le hle with hless | heq
    · have hbefore := h.located.before pos i hpos hi (by simpa using hless)
      have hcmp := totalOn_cmpWindowRows types order
      rw [(hcmp.gt_iff (h.keyed _ (List.getElem_mem hi)) (h.keyed _ (List.getElem_mem hpos))).mpr hbefore]
        at hlt
      cases hlt
    · have hpeers := h.located.peers i pos hi hpos (by simpa using heq.symm)
      rw [hpeers] at hlt
      cases hlt
  · intro hne
    by_contra hlt
    exact hne (h.located.before i pos hi hpos (by simpa using not_le.mp hlt))

theorem lt_peerEnd_iff (h : Sorted types order ordered) {i pos : ℕ} (hi : i < ordered.length)
    (hpos : pos < ordered.length) :
    i < (FrameCtx.new ordered order).peerEnd pos ↔ cmpWindowRows order ordered[i] ordered[pos] ≠ .gt := by
  have hhere := h.located.here pos hpos
  rw [Nat.zero_add] at hhere
  have hfinish := h.located.finish i _ _ hi hhere
  rw [Nat.zero_add] at hfinish
  rw [FrameCtx.peerEnd, hfinish]
  constructor
  · intro hle hgt
    rcases Nat.lt_or_eq_of_le hle with hlt | heq
    · have hbefore := h.located.before i pos hi hpos (by simpa using hlt)
      rw [hbefore] at hgt
      cases hgt
    · have hpeers := h.located.peers i pos hi hpos (by simpa using heq)
      rw [hpeers] at hgt
      cases hgt
  · intro hne
    by_contra hlt
    have hbefore := h.located.before pos i hpos hi (by simpa using not_le.mp hlt)
    have hcmp := totalOn_cmpWindowRows types order
    have hkeyed := h.keyed _ (List.getElem_mem hi)
    exact hne ((hcmp.gt_iff hkeyed (h.keyed _ (List.getElem_mem hpos))).mpr hbefore)

theorem peerEnd_le (h : Sorted types order ordered) {pos : ℕ} (hpos : pos < ordered.length) :
    (FrameCtx.new ordered order).peerStart pos ≤ pos ∧
      (FrameCtx.new ordered order).peerEnd pos ≤ ordered.length := by
  have hhere := h.located.here pos hpos
  rw [Nat.zero_add] at hhere
  have hwithin := h.located.within _ _ hhere
  have hstart := (h.located.start pos _ _ hpos hhere).mpr (by simp)
  rw [Nat.zero_add] at hstart hwithin
  exact ⟨hstart, hwithin.2.2⟩

end

end Jed.Window
