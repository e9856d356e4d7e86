import Jed.Access.Expr
import Jed.Gin.Postings
import Jed.Key.Elements
import Jed.PMap.Cursor

/-!
# Canonical interval sets

The key intervals a disjunction of comparisons and array memberships asks for
(`executor/access_encode.rs`): each disjunct is one interval, an array one point an element, all of them
inside the interval of the comparisons that stand beside the disjunction. The intervals are sorted and
merged, so that a scan of one after the other comes by every key once and in order.
-/

namespace Jed.Access

open KeyCodes

open Gin (KeyBound prefixSuccessor)

/-- `KeyBound::unbounded` (`pmap.rs:755`). -/
def unbounded : KeyBound := ⟨none, false, none, false⟩

/-- `intersect_lo` (`access_encode.rs:7139-7148`). -/
def intersectLo (b : KeyBound) (key : Bytes) (inc : Bool) : KeyBound :=
  let replace := match b.lo with
    | none => true
    | some cur => key > cur || (key = cur && !inc)
  if replace then { b with lo := some key, loInc := inc } else b

/-- `intersect_hi` (`access_encode.rs:7152-7161`). -/
def intersectHi (b : KeyBound) (key : Bytes) (inc : Bool) : KeyBound :=
  let replace := match b.hi with
    | none => true
    | some cur => key < cur || (key = cur && !inc)
  if replace then { b with hi := some key, hiInc := inc } else b

/-- `bound_empty` (`access_encode.rs:7164-7176`). -/
def boundEmpty (b : KeyBound) : Bool :=
  match b.lo, b.hi with
  | some lo, some hi => lo > hi || (lo = hi && !(b.loInc && b.hiInc))
  | _, _ => false

/-- `intersect_bounds`. -/
def intersectBounds (a b : KeyBound) : KeyBound :=
  let a := match b.lo with
    | some lo => intersectLo a lo b.loInc
    | none => a
  match b.hi with
  | some hi => intersectHi a hi b.hiInc
  | none => a

/-- The point interval of a key. -/
def point (key : Bytes) : KeyBound := intersectHi (intersectLo unbounded key true) key true

/-- `BoundKey` (`access_encode.rs:406-412`). -/
inductive BoundKey where
  | null
  | outOfRange
  | key (k : Bytes)

/-- `BoundTerm` (`executor/mod.rs:7297`): a comparison of the key with a source of `σ`. -/
structure BoundTerm (σ : Type) where
  op : CmpOp
  src : σ

/-- `IntervalSpec` (`executor/mod.rs:7329`): a disjunct; its arrays are of `α`. -/
structure IntervalSpec (σ α : Type) where
  terms : List (BoundTerm σ)
  array : Option α

/-- What an execution reads of a key's type: `encode_bound_key` and `array_point_keys` at its parameters
and rows (an array that is not yet folded has no points), and `is_fixed_width`. -/
structure KeyReader (σ α : Type) where
  encode : σ → BoundKey
  arrayPointKeys : α → Option (List Bytes)
  isFixedWidth : Bool

variable {σ α : Type}

/-- One comparison of `build_logical_interval`. -/
def tighten (b : KeyBound) (key : Bytes) : CmpOp → KeyBound
  | .eq => intersectHi (intersectLo b key true) key true
  | .gt => intersectLo b key false
  | .ge => intersectLo b key true
  | .lt => intersectHi b key false
  | .le => intersectHi b key true
  | .ne => b

/-- The loop of `build_logical_interval`. -/
def buildFrom (r : KeyReader σ α) (b : KeyBound) : List (BoundTerm σ) → Option KeyBound
  | [] => some b
  | term :: terms =>
    match r.encode term.src with
    | .null => none
    | .outOfRange => if term.op = .eq then none else buildFrom r b terms
    | .key k => buildFrom r (tighten b k term.op) terms

/-- `build_logical_interval` (`access_encode.rs:6269-6298`). -/
def buildLogicalInterval (r : KeyReader σ α) (terms : List (BoundTerm σ)) : Option KeyBound :=
  (buildFrom r unbounded terms).filter fun b => !boundEmpty b

/-- An interval unless it is empty. -/
def unlessEmpty (b : KeyBound) : List KeyBound := if boundEmpty b then [] else [b]

/-- The clip of an array's points: its own comparisons, then the clip (`access_encode.rs:6331-6340`). -/
def pointClip (r : KeyReader σ α) (clip : KeyBound) (terms : List (BoundTerm σ)) : Option KeyBound :=
  if terms.isEmpty then some clip else (buildLogicalInterval r terms).map (intersectBounds · clip)

/-- The intervals of one disjunct, the loop of `canonical_interval_set`. -/
def specIntervals (r : KeyReader σ α) (clip : KeyBound) (spec : IntervalSpec σ α) : List KeyBound :=
  match spec.array with
  | some array =>
    match pointClip r clip spec.terms with
    | none => []
    | some within =>
      match r.arrayPointKeys array with
      | none => unlessEmpty within
      | some keys => keys.flatMap fun key => unlessEmpty (intersectBounds (point key) within)
  | none =>
    match buildLogicalInterval r spec.terms with
    | none => []
    | some b => unlessEmpty (intersectBounds b clip)

/-- The order of `merge_key_intervals`: by lower endpoint, an included one first. -/
def cmpLo (a b : KeyBound) : Ordering :=
  match a.lo, b.lo with
  | none, none => compare b.loInc a.loInc
  | none, some _ => .lt
  | some _, none => .gt
  | some x, some y => (lexCompare x y).then (compare b.loInc a.loInc)

/-- Whether an interval goes on from the one before it. -/
def joins (fixedWidth : Bool) (cur next : KeyBound) : Bool :=
  match cur.hi, next.lo with
  | some h, some l =>
    l < h || (l = h && (cur.hiInc || next.loInc)) ||
      (fixedWidth && cur.hiInc && next.loInc && prefixSuccessor h = some l)
  | _, _ => true

/-- An interval with the later of two upper endpoints. -/
def extend (cur next : KeyBound) : KeyBound :=
  match cur.hi, next.hi with
  | none, _ => cur
  | some _, none => { cur with hi := none, hiInc := false }
  | some c, some n =>
    if n > c || (n = c && next.hiInc) then { cur with hi := some n, hiInc := next.hiInc } else cur

/-- The loop of `merge_key_intervals`, on the output from its last interval on. -/
def mergeStep (fixedWidth : Bool) (out : List KeyBound) (next : KeyBound) : List KeyBound :=
  match out with
  | [] => [next]
  | cur :: rest => if joins fixedWidth cur next then extend cur next :: rest else next :: cur :: rest

/-- `merge_key_intervals` (`access_encode.rs:6371-6412`). -/
def mergeKeyIntervals (fixedWidth : Bool) (intervals : List KeyBound) : List KeyBound :=
  ((intervals.mergeSort fun a b => (cmpLo a b).isLE).foldl (mergeStep fixedWidth) []).reverse

/-- `canonical_interval_set` (`access_encode.rs:6310-6367`). -/
def canonicalIntervalSet (r : KeyReader σ α) (specs : List (IntervalSpec σ α))
    (clipTerms : List (BoundTerm σ)) : List KeyBound :=
  let clip := if clipTerms.isEmpty then some unbounded else buildLogicalInterval r clipTerms
  match clip with
  | none => []
  | some clip => mergeKeyIntervals r.isFixedWidth (specs.flatMap (specIntervals r clip))

/-! ## What a bound admits -/

/-- A key is not below a bound. -/
def Above (b : KeyBound) (k : Bytes) : Prop := ∀ lo ∈ b.lo, if b.loInc then lo ≤ k else lo < k

/-- A key is not above a bound. -/
def Below (b : KeyBound) (k : Bytes) : Prop := ∀ hi ∈ b.hi, if b.hiInc then k ≤ hi else k < hi

variable {a b c : KeyBound} {k key : Bytes} {inc : Bool}

theorem contains_iff : b.contains k ↔ Above b k ∧ Below b k := by
  unfold KeyBound.contains Above Below
  cases b.lo <;> cases b.hi <;> cases b.loInc <;> cases b.hiInc <;> simp

theorem above_some {lo : Bytes} (h : b.lo = some lo) :
    Above b k ↔ if b.loInc then lo ≤ k else lo < k := by simp [Above, h]

theorem below_some {hi : Bytes} (h : b.hi = some hi) :
    Below b k ↔ if b.hiInc then k ≤ hi else k < hi := by simp [Below, h]

theorem above_none (h : b.lo = none) : Above b k := by simp [Above, h]

theorem below_none (h : b.hi = none) : Below b k := by simp [Below, h]

theorem above_intersectLo :
    Above (intersectLo b key inc) k ↔ Above b k ∧ if inc then key ≤ k else key < k := by
  cases hlo : b.lo with
  | none =>
    simp only [intersectLo, hlo, if_true]
    exact (above_some rfl).trans (and_iff_right (above_none hlo)).symm
  | some cur =>
    simp only [intersectLo, hlo, above_some hlo]
    split
    · rw [above_some rfl]
      grind
    · rw [above_some hlo]
      grind

theorem below_intersectHi :
    Below (intersectHi b key inc) k ↔ Below b k ∧ if inc then k ≤ key else k < key := by
  cases hhi : b.hi with
  | none =>
    simp only [intersectHi, hhi, if_true]
    exact (below_some rfl).trans (and_iff_right (below_none hhi)).symm
  | some cur =>
    simp only [intersectHi, hhi, below_some hhi]
    split
    · rw [below_some rfl]
      grind
    · rw [below_some hhi]
      grind

@[simp] theorem below_intersectLo : Below (intersectLo b key inc) k ↔ Below b k := by
  simp only [intersectLo, Below]
  split <;> rfl

@[simp] theorem above_intersectHi : Above (intersectHi b key inc) k ↔ Above b k := by
  simp only [intersectHi, Above]
  split <;> rfl

theorem contains_intersectBounds :
    (intersectBounds a b).contains k ↔ a.contains k ∧ b.contains k := by
  simp only [contains_iff]
  unfold intersectBounds
  cases hlo : b.lo <;> cases hhi : b.hi <;>
    simp only [below_intersectLo, above_intersectHi, above_intersectLo, below_intersectHi] <;>
    simp [above_none, below_none, above_some, below_some, hlo, hhi] <;> tauto

theorem not_contains_of_boundEmpty (h : boundEmpty b) : b.contains k = false := by
  refine Bool.eq_false_iff.mpr fun hk => ?_
  obtain ⟨hlo, hhi⟩ := contains_iff.mp hk
  cases hl : b.lo with
  | none => simp [boundEmpty, hl] at h
  | some lo =>
    cases hh : b.hi with
    | none => simp [boundEmpty, hl, hh] at h
    | some hi =>
      rw [above_some hl] at hlo
      rw [below_some hh] at hhi
      simp only [boundEmpty, hl, hh] at h
      grind

theorem contains_unlessEmpty : (∃ c ∈ unlessEmpty b, c.contains k) ↔ b.contains k := by
  unfold unlessEmpty
  split
  · rename_i h
    simp [not_contains_of_boundEmpty h]
  · simp

@[simp] theorem contains_unbounded : unbounded.contains k = true := rfl

theorem contains_point : (point key).contains k ↔ k = key := by
  rw [contains_iff, point, above_intersectHi, above_intersectLo, below_intersectHi, below_intersectLo]
  have hfull := contains_iff.mp (contains_unbounded (k := k))
  simp only [hfull, true_and, if_true]
  exact ⟨fun h => le_antisymm h.2 h.1, fun h => ⟨h.ge, h.le⟩⟩

/-! ## Merging -/

/-- Every key up to the end of one interval is below every key from the start of another. -/
def Before (a b : KeyBound) : Prop := ∀ k k', Below a k → Above b k' → k < k'

/-- An interval starts no later than another. -/
def StartsBy (a b : KeyBound) : Prop := ∀ k, Above b k → Above a k

/-- A key has the length of an interval's closed upper endpoint. -/
def HasWidth (k : Bytes) (b : KeyBound) : Prop := ∀ hi ∈ b.hi, b.hiInc → hi.length = k.length

variable {fixedWidth : Bool} {cur next : KeyBound} {out l : List KeyBound}

/-- The lower endpoint of one interval sorts no later than that of another. -/
def LowerLe (a b : KeyBound) : Prop :=
  match a.lo, b.lo with
  | none, none => b.loInc → a.loInc
  | none, some _ => True
  | some _, none => False
  | some x, some y => x < y ∨ x = y ∧ (b.loInc → a.loInc)

theorem isLE_cmpLo : (cmpLo a b).isLE ↔ LowerLe a b := by
  have hinc : (compare b.loInc a.loInc).isLE ↔ (b.loInc → a.loInc) := by
    cases a.loInc <;> cases b.loInc <;> decide
  unfold cmpLo LowerLe
  split
  · exact hinc
  · simp
  · simp
  · rename_i x y _ _
    rcases lt_trichotomy x y with h | rfl | h
    · simp [Key.lexCompare_lt_iff.mpr h, h]
    · simpa [lexCompare_self] using hinc
    · simp [Key.lexCompare_gt_iff.mpr h, h.not_gt, h.ne']

theorem LowerLe.startsBy (h : LowerLe a b) : StartsBy a b := by
  intro k hk
  cases ha : a.lo with
  | none => exact above_none ha
  | some x =>
    cases hb : b.lo with
    | none => simp [LowerLe, ha, hb] at h
    | some y =>
      rw [above_some ha]
      rw [above_some hb] at hk
      simp only [LowerLe, ha, hb] at h
      grind

theorem LowerLe.trans (hab : LowerLe a b) (hbc : LowerLe b c) : LowerLe a c := by
  unfold LowerLe at *
  cases ha : a.lo <;> cases hb : b.lo <;> cases hc : c.lo <;> simp only [ha, hb, hc] at * <;> grind

theorem lowerLe_total (a b : KeyBound) : LowerLe a b ∨ LowerLe b a := by
  unfold LowerLe
  cases ha : a.lo <;> cases hb : b.lo <;> simp only <;> grind

theorem pairwise_sorted (l : List KeyBound) :
    (l.mergeSort fun a b => (cmpLo a b).isLE).Pairwise StartsBy := by
  refine (List.pairwise_mergeSort (fun a b c hab hbc => ?_) (fun a b => ?_) l).imp
    fun h => (isLE_cmpLo.mp h).startsBy
  · exact isLE_cmpLo.mpr ((isLE_cmpLo.mp hab).trans (isLE_cmpLo.mp hbc))
  · rw [Bool.or_eq_true, isLE_cmpLo, isLE_cmpLo]
    exact lowerLe_total a b

/-- No key of the width stands between two intervals that join. -/
theorem below_or_above_of_joins (h : joins fixedWidth cur next) (hw : fixedWidth → HasWidth k cur) :
    Below cur k ∨ Above next k := by
  cases hh : cur.hi with
  | none => exact .inl (below_none hh)
  | some hi =>
    cases hl : next.lo with
    | none => exact .inr (above_none hl)
    | some lo =>
      rw [below_some hh, above_some hl]
      simp only [joins, hh, hl, Bool.or_eq_true, Bool.and_eq_true, decide_eq_true_eq] at h
      rcases h with (hlt | ⟨rfl, hinc⟩) | ⟨⟨⟨hf, hci⟩, hni⟩, hsucc⟩
      · grind
      · grind
      · rw [if_pos hci, if_pos hni]
        by_contra hgap
        obtain ⟨hhk, hkl⟩ := not_or.mp hgap
        -- a key from the endpoint up to its successor extends it
        have hpre : hi <+: k := by
          rw [← Gin.prefixSuccessor_iff (not_le.mp hhk).le, hsucc]
          simpa using hkl
        exact hhk (hpre.eq_of_length (hw hf hi hh hci)).ge

theorem before_of_not_joins (h : ¬joins fixedWidth cur next) : Before cur next := by
  intro k k' hk hk'
  cases hh : cur.hi with
  | none => simp [joins, hh] at h
  | some hi =>
    cases hl : next.lo with
    | none => simp [joins, hh, hl] at h
    | some lo =>
      rw [below_some hh] at hk
      rw [above_some hl] at hk'
      simp only [joins, hh, hl, Bool.or_eq_true, Bool.and_eq_true, decide_eq_true_eq] at h
      grind

theorem above_extend : Above (extend cur next) k ↔ Above cur k := by
  unfold extend
  split <;> try split
  all_goals rfl

theorem below_extend : Below (extend cur next) k ↔ Below cur k ∨ Below next k := by
  unfold extend
  split
  · rename_i hh
    simp [below_none hh]
  · rename_i hh hn
    exact iff_of_true (below_none rfl) (.inr (below_none hn))
  · rename_i c n hh hn
    rw [below_some hh, below_some hn]
    split
    · rw [below_some rfl]
      grind
    · rw [below_some hh]
      grind

theorem HasWidth.extend (hc : HasWidth k cur) (hn : HasWidth k next) : HasWidth k (extend cur next) := by
  unfold Access.extend
  split <;> try split
  · exact hc
  · exact fun hi h => by simp at h
  · rename_i hn' _
    intro hi h hinc
    exact hn hi (hn'.trans h) hinc
  · exact hc

/-- One more interval is admitted as it is, and nothing else. -/
theorem contains_mergeStep (hs : ∀ o ∈ out, StartsBy o next)
    (hw : fixedWidth → ∀ o ∈ out, HasWidth k o) :
    (∃ b ∈ mergeStep fixedWidth out next, b.contains k) ↔
      (∃ b ∈ out, b.contains k) ∨ next.contains k := by
  cases out with
  | nil => simp [mergeStep]
  | cons cur rest =>
    rw [mergeStep]
    split
    · rename_i hj
      have hgap := below_or_above_of_joins hj fun hf => hw hf cur (by simp)
      have hle := hs cur (by simp) k
      have hone : (extend cur next).contains k ↔ cur.contains k ∨ next.contains k := by
        rw [contains_iff, contains_iff, contains_iff, above_extend, below_extend]
        tauto
      simp only [List.exists_mem_cons_iff, hone]
      exact or_right_comm
    · simp only [List.exists_mem_cons_iff]
      exact or_comm

theorem hasWidth_mergeStep (ho : ∀ o ∈ out, HasWidth k o) (hn : HasWidth k next) :
    ∀ o ∈ mergeStep fixedWidth out next, HasWidth k o := by
  cases out with
  | nil => simpa [mergeStep] using hn
  | cons cur rest =>
    obtain ⟨hc, hr⟩ := List.forall_mem_cons.mp ho
    rw [mergeStep]
    split
    · exact List.forall_mem_cons.mpr ⟨hc.extend hn, hr⟩
    · exact List.forall_mem_cons.mpr ⟨hn, ho⟩

theorem startsBy_mergeStep (ho : ∀ o ∈ out, StartsBy o b) (hn : StartsBy next b) :
    ∀ o ∈ mergeStep fixedWidth out next, StartsBy o b := by
  cases out with
  | nil => simpa [mergeStep] using hn
  | cons cur rest =>
    obtain ⟨hc, hr⟩ := List.forall_mem_cons.mp ho
    rw [mergeStep]
    split
    · exact List.forall_mem_cons.mpr ⟨fun k hk => above_extend.mpr (hc k hk), hr⟩
    · exact List.forall_mem_cons.mpr ⟨hn, ho⟩

/-- The output stays apart: an interval that joins leaves the start of the last one where it is. -/
theorem pairwise_mergeStep (hp : out.Pairwise fun b a => Before a b)
    (hs : ∀ o ∈ out, StartsBy o next) :
    (mergeStep fixedWidth out next).Pairwise fun b a => Before a b := by
  cases out with
  | nil => simp [mergeStep]
  | cons cur rest =>
    obtain ⟨hcur, hrest⟩ := List.pairwise_cons.mp hp
    rw [mergeStep]
    split
    · exact List.pairwise_cons.mpr
        ⟨fun a ha k k' hk hk' => hcur a ha k k' hk (above_extend.mp hk'), hrest⟩
    · rename_i hj
      refine List.pairwise_cons.mpr ⟨List.forall_mem_cons.mpr ⟨before_of_not_joins hj, ?_⟩, hp⟩
      exact fun a ha k k' hk hk' => hcur a ha k k' hk (hs cur (by simp) k' hk')

theorem pairwise_foldl (hp : out.Pairwise fun b a => Before a b) (hl : l.Pairwise StartsBy)
    (hs : ∀ o ∈ out, ∀ n ∈ l, StartsBy o n) :
    (l.foldl (mergeStep fixedWidth) out).Pairwise fun b a => Before a b := by
  induction l generalizing out with
  | nil => exact hp
  | cons next l ih =>
    obtain ⟨hnext, hl⟩ := List.pairwise_cons.mp hl
    refine ih (pairwise_mergeStep hp fun o ho => hs o ho next (by simp)) hl fun o ho n hn => ?_
    exact startsBy_mergeStep (fun o ho => hs o ho n (by simp [hn])) (hnext n hn) o ho

theorem contains_foldl (hl : l.Pairwise StartsBy) (hs : ∀ o ∈ out, ∀ n ∈ l, StartsBy o n)
    (hw : fixedWidth → ∀ o ∈ out ++ l, HasWidth k o) :
    (∃ b ∈ l.foldl (mergeStep fixedWidth) out, b.contains k) ↔
      (∃ b ∈ out, b.contains k) ∨ ∃ b ∈ l, b.contains k := by
  induction l generalizing out with
  | nil => simp
  | cons next l ih =>
    obtain ⟨hnext, hl⟩ := List.pairwise_cons.mp hl
    have hwo : fixedWidth → ∀ o ∈ out, HasWidth k o := fun hf o ho => hw hf o (by simp [ho])
    have hstep := contains_mergeStep (fun o ho => hs o ho next (by simp)) hwo
    have hs' : ∀ o ∈ mergeStep fixedWidth out next, ∀ n ∈ l, StartsBy o n := fun o ho n hn =>
      startsBy_mergeStep (fun o ho => hs o ho n (by simp [hn])) (hnext n hn) o ho
    have hw' : fixedWidth → ∀ o ∈ mergeStep fixedWidth out next ++ l, HasWidth k o := fun hf o ho =>
      (List.mem_append.mp ho).elim
        (hasWidth_mergeStep (hwo hf) (hw hf next (by simp)) o) fun ho => hw hf o (by simp [ho])
    rw [List.foldl_cons, ih hl hs' hw', hstep, List.exists_mem_cons_iff, or_assoc]

/-- The merged intervals follow one another. -/
theorem pairwise_mergeKeyIntervals (fixedWidth : Bool) (l : List KeyBound) :
    (mergeKeyIntervals fixedWidth l).Pairwise Before :=
  List.pairwise_reverse.mpr <| pairwise_foldl .nil
    (pairwise_sorted l) (by simp)

/-- The merged intervals admit what the intervals admit. -/
theorem contains_mergeKeyIntervals (hw : fixedWidth → ∀ b ∈ l, HasWidth k b) :
    (∃ b ∈ mergeKeyIntervals fixedWidth l, b.contains k) ↔ ∃ b ∈ l, b.contains k := by
  have hmem : ∀ b, (b ∈ l.mergeSort fun a b => (cmpLo a b).isLE) ↔ b ∈ l := fun b => List.mem_mergeSort
  have hsame : ∀ b ∈ [] ++ l.mergeSort fun a b => (cmpLo a b).isLE, b ∈ l := fun b hb => (hmem b).mp hb
  have hrun := contains_foldl (pairwise_sorted l) (by simp) fun hf b hb => hw hf b (hsame b hb)
  simpa only [mergeKeyIntervals, List.mem_reverse, hmem, List.not_mem_nil, false_and, exists_false,
    false_or] using hrun

/-! ## What a disjunction asks for -/

/-- A comparison of a key with an encoded source. -/
def CmpOp.admits (key k : Bytes) : CmpOp → Bool
  | .eq => k = key
  | .gt => key < k
  | .ge => key ≤ k
  | .lt => k < key
  | .le => k ≤ key
  | .ne => true

/-- A term asks of a key: nothing is unknown and true, and only an equality needs its source to be a key. -/
def BoundTerm.admits (r : KeyReader σ α) (k : Bytes) (term : BoundTerm σ) : Bool :=
  match r.encode term.src with
  | .null => false
  | .outOfRange => term.op ≠ .eq
  | .key key => term.op.admits key k

/-- A disjunct asks of a key: its terms, and one of the points of its array. -/
def IntervalSpec.admits (r : KeyReader σ α) (k : Bytes) (spec : IntervalSpec σ α) : Bool :=
  spec.terms.all (BoundTerm.admits r k) &&
    spec.array.all fun array => (r.arrayPointKeys array).all fun keys => keys.contains k

/-- Keys of a fixed-width type have the length of all its encoded keys. -/
def KeyReader.Fits (r : KeyReader σ α) (k : Bytes) : Prop :=
  r.isFixedWidth → (∀ s key, r.encode s = .key key → key.length = k.length) ∧
    ∀ array keys, r.arrayPointKeys array = some keys → ∀ key ∈ keys, key.length = k.length

variable {r : KeyReader σ α} {term : BoundTerm σ} {terms : List (BoundTerm σ)}
  {spec : IntervalSpec σ α} {clip : KeyBound}

theorem contains_tighten (op : CmpOp) :
    (tighten b key op).contains k ↔ b.contains k ∧ op.admits key k := by
  cases op <;> simp [tighten, contains_iff, above_intersectLo, below_intersectHi, CmpOp.admits]
  case eq =>
    rw [le_antisymm_iff]
    tauto
  all_goals tauto

theorem contains_buildFrom :
    (∃ c ∈ buildFrom r b terms, c.contains k) ↔ b.contains k ∧ ∀ term ∈ terms, term.admits r k := by
  induction terms generalizing b with
  | nil => simp [buildFrom]
  | cons term terms ih =>
    rw [List.forall_mem_cons, buildFrom, BoundTerm.admits]
    cases r.encode term.src with
    | null => simp
    | outOfRange =>
      by_cases hop : term.op = .eq
      · simp [hop]
      · simpa [hop] using ih
    | key key =>
      simp only [ih, contains_tighten, and_assoc]

theorem contains_buildLogicalInterval :
    (∃ c ∈ buildLogicalInterval r terms, c.contains k) ↔ ∀ term ∈ terms, term.admits r k := by
  have hfrom : (∃ c ∈ buildFrom r unbounded terms, c.contains k) ↔ _ := contains_buildFrom
  simp only [contains_unbounded, true_and] at hfrom
  rw [← hfrom, buildLogicalInterval]
  refine exists_congr fun c => and_congr_left fun hc => ?_
  have hfull : boundEmpty c = false :=
    Bool.eq_false_iff.mpr fun h => by rw [not_contains_of_boundEmpty h] at hc; cases hc
  simp [Option.filter_eq_some_iff, hfull]

theorem contains_pointClip :
    (∃ c ∈ pointClip r clip terms, c.contains k) ↔
      (∀ term ∈ terms, term.admits r k) ∧ clip.contains k := by
  unfold pointClip
  split
  · rename_i h
    simp [List.isEmpty_iff.mp h]
  · rw [← contains_buildLogicalInterval]
    simp only [Option.mem_def, Option.map_eq_some_iff]
    constructor
    · rintro ⟨-, ⟨c, hc, rfl⟩, hk⟩
      obtain ⟨hck, hk⟩ := contains_intersectBounds.mp hk
      exact ⟨⟨c, hc, hck⟩, hk⟩
    · rintro ⟨⟨c, hc, hck⟩, hk⟩
      exact ⟨_, ⟨c, hc, rfl⟩, contains_intersectBounds.mpr ⟨hck, hk⟩⟩

theorem contains_points {keys : List Bytes} {within : KeyBound} :
    (∃ c ∈ keys.flatMap fun key => unlessEmpty (intersectBounds (point key) within), c.contains k) ↔
      k ∈ keys ∧ within.contains k := by
  simp only [List.mem_flatMap]
  constructor
  · rintro ⟨c, ⟨key, hkey, hc⟩, hk⟩
    obtain ⟨hp, hw⟩ := contains_intersectBounds.mp (contains_unlessEmpty.mp ⟨c, hc, hk⟩)
    exact ⟨contains_point.mp hp ▸ hkey, hw⟩
  · rintro ⟨hmem, hk⟩
    obtain ⟨c, hc, hck⟩ :=
      contains_unlessEmpty.mpr (contains_intersectBounds.mpr ⟨contains_point.mpr rfl, hk⟩)
    exact ⟨c, ⟨k, hmem, hc⟩, hck⟩

theorem contains_specIntervals :
    (∃ c ∈ specIntervals r clip spec, c.contains k) ↔ spec.admits r k ∧ clip.contains k := by
  unfold specIntervals IntervalSpec.admits
  rw [Bool.and_eq_true, List.all_eq_true]
  cases spec.array with
  | none =>
    have hbuild : (∃ c ∈ buildLogicalInterval r spec.terms, c.contains k) ↔ _ :=
      contains_buildLogicalInterval
    cases h : buildLogicalInterval r spec.terms with
    | none =>
      have hno : ¬∀ term ∈ spec.terms, term.admits r k := fun hall => by
        obtain ⟨c, hc, -⟩ := hbuild.mpr hall
        rw [h] at hc
        cases hc
      simp [hno]
    | some b =>
      rw [h] at hbuild
      simp only [contains_unlessEmpty, contains_intersectBounds, ← hbuild]
      simp
  | some array =>
    have hclip : (∃ c ∈ pointClip r clip spec.terms, c.contains k) ↔ _ := contains_pointClip
    cases h : pointClip r clip spec.terms with
    | none =>
      rw [h] at hclip
      simp only [Option.mem_def, reduceCtorEq, false_and, exists_false, false_iff] at hclip
      simp only [List.not_mem_nil, false_and, exists_false, false_iff]
      exact fun hk => hclip ⟨hk.1.1, hk.2⟩
    | some within =>
      rw [h] at hclip
      simp only [Option.mem_def, Option.some.injEq, exists_eq_left'] at hclip
      cases hkeys : r.arrayPointKeys array with
      | none => simpa [hkeys, contains_unlessEmpty] using hclip
      | some keys =>
        simp only [contains_points, hclip, Option.all_some, hkeys, List.contains_iff_mem]
        tauto

/-! ## The lengths of the endpoints -/

theorem intersectHi_eq (b : KeyBound) (key : Bytes) (inc : Bool) :
    intersectHi b key inc = { b with hi := some key, hiInc := inc } ∨ intersectHi b key inc = b :=
  ite_eq_or_eq _ _ _

theorem intersectLo_eq (b : KeyBound) (key : Bytes) (inc : Bool) :
    intersectLo b key inc = { b with lo := some key, loInc := inc } ∨ intersectLo b key inc = b :=
  ite_eq_or_eq _ _ _

theorem HasWidth.intersectHi (h : HasWidth k b) (hkey : inc → key.length = k.length) :
    HasWidth k (intersectHi b key inc) := by
  rcases intersectHi_eq b key inc with heq | heq
  · rw [heq]
    rintro hi ⟨⟩ hinc
    exact hkey hinc
  · rw [heq]
    exact h

theorem HasWidth.intersectLo (h : HasWidth k b) : HasWidth k (intersectLo b key inc) := by
  rcases intersectLo_eq b key inc with heq | heq <;> rw [heq] <;> exact h

theorem HasWidth.unbounded : HasWidth k unbounded := fun _ h => by cases h

theorem HasWidth.tighten (h : HasWidth k b) (hkey : key.length = k.length) (op : CmpOp) :
    HasWidth k (tighten b key op) := by
  cases op with
  | eq => exact h.intersectLo.intersectHi fun _ => hkey
  | lt => exact h.intersectHi fun _ => hkey
  | le => exact h.intersectHi fun _ => hkey
  | gt => exact h.intersectLo
  | ge => exact h.intersectLo
  | ne => exact h

theorem HasWidth.intersectBounds (ha : HasWidth k a) (hb : HasWidth k b) :
    HasWidth k (intersectBounds a b) := by
  unfold Access.intersectBounds
  cases hlo : b.lo <;> cases hhi : b.hi
  · exact ha
  · exact ha.intersectHi (hb _ hhi)
  · exact ha.intersectLo
  · exact ha.intersectLo.intersectHi (hb _ hhi)

section Fits

variable (hf : r.isFixedWidth) (hr : r.Fits k)

include hf hr

theorem HasWidth.buildFrom (h : HasWidth k b) (hc : c ∈ buildFrom r b terms) : HasWidth k c := by
  induction terms generalizing b with
  | nil =>
    cases hc
    exact h
  | cons term terms ih =>
    rw [Access.buildFrom] at hc
    cases henc : r.encode term.src with
    | null => simp [henc] at hc
    | outOfRange =>
      simp only [henc] at hc
      split at hc
      · cases hc
      · exact ih h hc
    | key key =>
      simp only [henc] at hc
      exact ih (h.tighten ((hr hf).1 _ _ henc) _) hc

theorem hasWidth_buildLogicalInterval (hc : c ∈ buildLogicalInterval r terms) : HasWidth k c :=
  HasWidth.buildFrom hf hr .unbounded (Option.filter_eq_some_iff.mp hc).1

theorem hasWidth_specIntervals (hclip : HasWidth k clip) (hc : c ∈ specIntervals r clip spec) :
    HasWidth k c := by
  have hone : ∀ {b}, HasWidth k b → c ∈ unlessEmpty b → HasWidth k c := fun hb hm => by
    unfold unlessEmpty at hm
    split at hm
    · cases hm
    · exact List.mem_singleton.mp hm ▸ hb
  have hpoint : ∀ {terms within}, within ∈ pointClip r clip terms → HasWidth k within := fun hw => by
    unfold pointClip at hw
    split at hw
    · exact Option.some.inj hw ▸ hclip
    · obtain ⟨b, hb, rfl⟩ := Option.map_eq_some_iff.mp hw
      exact (hasWidth_buildLogicalInterval hf hr hb).intersectBounds hclip
  unfold specIntervals at hc
  split at hc
  · split at hc
    · cases hc
    · rename_i hw
      split at hc
      · exact hone (hpoint hw) hc
      · rename_i keys hkeys
        obtain ⟨key, hkey, hc⟩ := List.mem_flatMap.mp hc
        refine hone (HasWidth.intersectBounds ?_ (hpoint hw)) hc
        exact HasWidth.unbounded.tighten ((hr hf).2 _ _ hkeys key hkey) .eq
  · split at hc
    · cases hc
    · rename_i hb
      exact hone ((hasWidth_buildLogicalInterval hf hr hb).intersectBounds hclip) hc

end Fits

/-- The canonical intervals admit the keys of the clip that some disjunct admits. -/
theorem contains_canonicalIntervalSet (hr : r.Fits k) (specs : List (IntervalSpec σ α))
    (clipTerms : List (BoundTerm σ)) :
    (∃ c ∈ canonicalIntervalSet r specs clipTerms, c.contains k) ↔
      (∀ term ∈ clipTerms, term.admits r k) ∧ ∃ spec ∈ specs, spec.admits r k := by
  have hclip : (∃ c ∈ (if clipTerms.isEmpty then some unbounded else buildLogicalInterval r clipTerms),
      c.contains k) ↔ ∀ term ∈ clipTerms, term.admits r k := by
    split
    · rename_i h
      simp [List.isEmpty_iff.mp h]
    · exact contains_buildLogicalInterval
  unfold canonicalIntervalSet
  dsimp only
  split
  · rename_i h
    rw [h] at hclip
    simp only [← hclip]
    simp
  · rename_i clip h
    have hwclip : r.isFixedWidth → HasWidth k clip := fun hf => by
      split at h
      · exact Option.some.inj h ▸ .unbounded
      · exact hasWidth_buildLogicalInterval hf hr h
    rw [contains_mergeKeyIntervals fun hf b hb => by
      obtain ⟨spec, -, hb⟩ := List.mem_flatMap.mp hb
      exact hasWidth_specIntervals hf hr (hwclip hf) hb]
    rw [h] at hclip
    simp only [Option.mem_def, Option.some.injEq, exists_eq_left'] at hclip
    rw [← hclip]
    constructor
    · rintro ⟨c, hc, hk⟩
      obtain ⟨spec, hspec, hc⟩ := List.mem_flatMap.mp hc
      obtain ⟨hadm, hk⟩ := contains_specIntervals.mp ⟨c, hc, hk⟩
      exact ⟨hk, spec, hspec, hadm⟩
    · rintro ⟨hk, spec, hspec, hadm⟩
      obtain ⟨c, hc, hck⟩ := contains_specIntervals.mpr ⟨hadm, hk⟩
      exact ⟨c, List.mem_flatMap.mpr ⟨spec, hspec, hc⟩, hck⟩

theorem pairwise_canonicalIntervalSet (specs : List (IntervalSpec σ α))
    (clipTerms : List (BoundTerm σ)) :
    (canonicalIntervalSet r specs clipTerms).Pairwise Before := by
  unfold canonicalIntervalSet
  dsimp only
  split
  · exact .nil
  · exact pairwise_mergeKeyIntervals _ _

/-! ## The scan of the intervals -/

section Scan

variable {ν : Type} {es : List (Bytes × ν)}

/-- Two bounds, one before the other, admit in turn what either admits. -/
theorem filter_append_filter {p q : Bytes → Bool} (hs : SortedMap.Sorted es)
    (hpq : ∀ k k', p k → q k' → k < k') :
    (es.filter fun e => p e.1) ++ (es.filter fun e => q e.1) = es.filter fun e => p e.1 || q e.1 := by
  induction es with
  | nil => rfl
  | cons e es ih =>
    obtain ⟨he, hs⟩ := List.pairwise_cons.mp hs
    have ih := ih hs
    by_cases hp : p e.1
    · have hq : ¬q e.1 := fun hq => lt_irrefl _ (hpq _ _ hp hq)
      simpa [hp, hq] using ih
    · by_cases hq : q e.1
      · have hnone : (es.filter fun e => p e.1) = [] :=
          List.filter_eq_nil_iff.mpr fun e' he' hp' => lt_asymm (he e' he') (hpq _ _ hp' hq)
        rw [hnone] at ih
        simpa [hp, hq, hnone] using ih
      · simpa [hp, hq] using ih

/-- Intervals one after the other admit what any of them admits, once and in order. -/
theorem flatMap_filter (hp : l.Pairwise Before) (hs : SortedMap.Sorted es) :
    (l.flatMap fun b => es.filter fun e => b.contains e.1) =
      es.filter fun e => l.any fun b => b.contains e.1 := by
  induction l with
  | nil => exact (List.filter_eq_nil_iff.mpr (by simp)).symm
  | cons b l ih =>
    obtain ⟨hb, hp⟩ := List.pairwise_cons.mp hp
    have happend := filter_append_filter (p := b.contains) (q := fun k => l.any fun c => c.contains k) hs
      fun k k' hk hk' => by
        obtain ⟨c, hc, hk'⟩ := List.any_eq_true.mp hk'
        exact hb c hc k k' (contains_iff.mp hk).2 (contains_iff.mp hk').1
    rw [List.flatMap_cons, ih hp, happend]
    rfl

end Scan

section Rows

open PMap Arc

variable {ε ρ : Type} {disk : Disk ρ} {src : Option (LeafSource ε ρ)} {h : Heap ε ρ} {m : PMap}
  {tm : TreeMap ρ}

/-- `pk_key_set_rows` (`executor/access_path.rs:79-103`): the rows of each interval, and the pages that
they are on. -/
def pkKeySetRows (src : Option (LeafSource ε ρ)) (h : Heap ε ρ) (m : PMap) :
    List KeyBound → Except (Fault ε) (List (Bytes × ρ) × Nat)
  | [] => .ok ([], 0)
  | b :: bs => do
    let scanned ← rangeEntriesCounted src h m b
    let rest ← pkKeySetRows src h m bs
    return (scanned.1 ++ rest.1, scanned.2 + rest.2)

section

variable (hr : RootRep disk h m.root tm.root) (hord : tm.Routed) (hsrc : SourceOk disk src)

include hr hord hsrc

theorem pkKeySetRows_spec (bs : List KeyBound) :
    Reads src (SortedMap.mapValues Rec.row (bs.flatMap tm.entriesIn), (bs.map tm.nodesIn).sum)
      (pkKeySetRows src h m bs) := by
  induction bs with
  | nil => exact .inl rfl
  | cons b bs ih =>
    rw [pkKeySetRows]
    rcases rangeEntriesCounted_spec hr hord hsrc b with heq | ⟨e, he, heq⟩
    · rcases ih with hrest | ⟨e, he, hrest⟩
      · rw [heq, hrest, List.flatMap_cons, SortedMap.mapValues, List.map_append]
        exact .inl rfl
      · rw [heq, hrest]
        exact .inr ⟨e, he, rfl⟩
    · rw [heq]
      exact .inr ⟨e, he, rfl⟩

/-- The scan of a canonical interval set comes by the entries of the map that meet the clip and some
disjunct, each once and in the order of their keys, unless a leaf does not load. -/
theorem canonical_scan (specs : List (IntervalSpec σ α)) (clipTerms : List (BoundTerm σ))
    (hfits : ∀ e ∈ tm.contents, r.Fits e.1) :
    Reads src
      (SortedMap.mapValues Rec.row (tm.contents.filter fun e =>
          clipTerms.all (BoundTerm.admits r e.1) && specs.any (IntervalSpec.admits r e.1)),
        ((canonicalIntervalSet r specs clipTerms).map tm.nodesIn).sum)
      (pkKeySetRows src h m (canonicalIntervalSet r specs clipTerms)) := by
  have hsorted : SortedMap.Sorted tm.contents := by
    unfold TreeMap.contents
    cases hroot : tm.root with
    | none => exact .nil
    | some t => exact (hord t.1 t.2 hroot).records_sorted
  have hscan := flatMap_filter (pairwise_canonicalIntervalSet (r := r) specs clipTerms) hsorted
  have hfilter : (tm.contents.filter fun e => clipTerms.all (BoundTerm.admits r e.1) &&
      specs.any (IntervalSpec.admits r e.1)) = (canonicalIntervalSet r specs clipTerms).flatMap tm.entriesIn := by
    refine Eq.trans (List.filter_congr fun e he => ?_) hscan.symm
    rw [Bool.eq_iff_iff, List.any_eq_true, contains_canonicalIntervalSet (hfits e he), Bool.and_eq_true,
      List.all_eq_true, List.any_eq_true]
  rw [hfilter]
  exact pkKeySetRows_spec hr hord hsrc _

end

/-- `k = 1 OR k = ANY('{7,4}')`, beside `k < 4`, over the tree of two leaves. -/
theorem canonical_scan_twoLeaves :
    let r : KeyReader UInt8 (List UInt8) := ⟨fun x => .key [x], fun xs => some (xs.map ([·])), true⟩
    let set := canonicalIntervalSet r [⟨[⟨.eq, 1⟩], none⟩, ⟨[], some [7, 4]⟩] [⟨.lt, 4⟩]
    Reads (some twoLeavesSource) ([([1], 10)], (set.map twoLeaves.nodesIn).sum)
      (pkKeySetRows (some twoLeavesSource) twoLeavesHeap ⟨some 1, some 2⟩ set) := by
  intro r set
  have hsource : SourceOk twoLeavesDisk (some twoLeavesSource) := by
    refine ⟨fun _ _ _ => rfl, ?_⟩
    rintro _ ⟨⟩ k p es nd hes ⟨⟩
    unfold twoLeavesDisk at hes
    split at hes
    · cases hes
      exact Node.leaf_isLeafOf _
    · cases hes
  refine @canonical_scan _ _ r _ _ _ _ _ ⟨some 1, some 2⟩ _ twoLeaves_rep twoLeaves_routed hsource _ _
    fun e he _ => ?_
  have hlen : ∀ e ∈ twoLeaves.contents, e.1.length = 1 := by decide
  rw [hlen e he]
  refine ⟨fun s key h => by cases h; rfl, fun xs keys h key hkey => ?_⟩
  cases h
  obtain ⟨x, -, rfl⟩ := List.mem_map.mp hkey
  rfl

end Rows

end Jed.Access
