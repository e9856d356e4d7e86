import Jed.Window.Aggregate
import Jed.Window.FrameSpec

/-!
# Carried accumulators

The results of an aggregate over a partition are those of a new fold over each row's frame.
-/

namespace Jed.Window

open Key Positions Results

variable {σ : Type}

namespace AggSpec

variable (spec : AggSpec σ) (ordered : List Entry)

/-- One row of the frame of `pos`. -/
def foldFrame (ctx : FrameCtx) (pos : Nat) (acc : Acc σ) (k : Nat) : Except Failure (Acc σ) :=
  if ctx.isExcluded pos k spec.exclude then .ok acc else spec.foldRunning ctx.ordered acc k

/-- The result of a row: the rows of its frame, folded in the sorted order. -/
def frameResult (F : FloatArith) (ctx : FrameCtx) (pos : Nat) : Except Failure Value := do
  let (lo, hi) ← ctx.bounds F pos spec.frame
  let acc ← foldRange (spec.foldFrame ctx pos) (Acc.new spec.plan) lo hi
  acc.finalize

/-- The value of a row, folded in. -/
def enter (acc : Acc σ) (k : Nat) : Except Failure (Acc σ) :=
  (spec.opval ordered k).bind fun v => acc.fold v

/-- What is in the memo is what the operand evaluates to. -/
structure CacheOk (vals : Vals) : Prop where
  length : vals.length = ordered.length
  holds : ∀ k v, vals[k]? = some (some v) → spec.opval ordered k = .ok v

variable {spec ordered}

theorem cacheOk_start : spec.CacheOk ordered (List.replicate ordered.length none) where
  length := List.length_replicate
  holds k v h := by
    rw [List.getElem?_replicate] at h
    split at h <;> cases h

variable {vals : Vals}

theorem CacheOk.set (h : spec.CacheOk ordered vals) {k : ℕ} {v : Value}
    (hv : spec.opval ordered k = .ok v) : spec.CacheOk ordered (vals.set k (some v)) where
  length := by rw [List.length_set, h.length]
  holds j w hw := by
    by_cases hjk : k = j
    · subst hjk
      rw [List.getElem?_set_self'] at hw
      cases hval : vals[k]? with
      | none =>
        rw [hval] at hw
        cases hw
      | some old =>
        rw [hval] at hw
        cases hw
        exact hv
    · rw [List.getElem?_set_ne hjk] at hw
      exact h.holds j w hw

theorem CacheOk.evalAt (h : spec.CacheOk ordered vals) (k : ℕ) :
    Tracks (spec.CacheOk ordered) (spec.evalAt ordered k vals) (spec.opval ordered k) := by
  cases hop : spec.operand with
  | none =>
    simp only [AggSpec.evalAt, opval, hop]
    exact .ok h
  | some e =>
    cases hval : vals[k]? with
    | none =>
      have hlen := List.getElem?_eq_none_iff.mp hval
      rw [h.length] at hlen
      simp only [AggSpec.evalAt, opval, hop, hval, rowAt, List.getElem?_eq_none_iff.mpr hlen]
      rfl
    | some old =>
      cases old with
      | some v =>
        rw [h.holds k v hval]
        simp only [AggSpec.evalAt, hop, hval]
        exact .ok h
      | none =>
        have heval : spec.evalAt ordered k vals =
            (spec.opval ordered k).map fun v => (v, vals.set k (some v)) := by
          simp only [AggSpec.evalAt, opval, hop, hval]
          cases rowAt ordered k <;> rfl
        rw [heval]
        cases hv : spec.opval ordered k with
        | error err => rfl
        | ok v => exact .ok (h.set hv)

theorem CacheOk.foldAt (h : spec.CacheOk ordered vals) (acc : Acc σ) (k : ℕ) :
    Tracks (spec.CacheOk ordered) (spec.foldAt ordered (acc, vals) k) (spec.enter ordered acc k) := by
  exact (h.evalAt k).bind fun v vals hvals => .of_memo hvals (acc.fold v)

variable {ctx : FrameCtx}

theorem CacheOk.foldKept (h : spec.CacheOk ctx.ordered vals) (pos : ℕ) (acc : Acc σ) (k : ℕ) :
    Tracks (spec.CacheOk ctx.ordered) (spec.foldKept ctx pos (acc, vals) k)
      (spec.foldFrame ctx pos acc k) := by
  unfold AggSpec.foldKept foldFrame
  split
  · exact .ok h
  · unfold foldRunning
    cases spec.filterPass ctx.ordered k with
    | error err => rfl
    | ok pass =>
      cases pass with
      | true => exact h.foldAt acc k
      | false => exact .ok h

variable {lo hi pos : ℕ} {F : FloatArith}

theorem rangeBounds_le {f : ResolvedFrame} (h : ctx.rangeBounds F pos f = .ok (lo, hi)) : lo ≤ hi := by
  unfold FrameCtx.rangeBounds at h
  split at h
  · cases h
    exact le_max_right _ _
  · split at h
    · split at h
      · cases h
        exact le_max_right _ _
      · obtain ⟨x, -, h⟩ := bind_eq_ok.mp h
        obtain ⟨y, -, h⟩ := bind_eq_ok.mp h
        cases h
        exact le_max_right _ _
    · cases h

theorem bounds_le {frame : Option ResolvedFrame} (h : ctx.bounds F pos frame = .ok (lo, hi)) : lo ≤ hi := by
  unfold FrameCtx.bounds at h
  split at h
  · cases h
    exact Nat.zero_le _
  · split at h
    · obtain ⟨x, -, h⟩ := bind_eq_ok.mp h
      obtain ⟨y, -, h⟩ := bind_eq_ok.mp h
      cases h
      exact le_max_right _ _
    · obtain ⟨x, -, h⟩ := bind_eq_ok.mp h
      obtain ⟨y, -, h⟩ := bind_eq_ok.mp h
      cases h
      exact le_max_right _ _
    · exact rangeBounds_le h

/-- A step that folds the frame of the row and goes on with the memo, is the result of the row and then
    what the rest gives. -/
theorem tracks_step {Q : Vals → Prop} {r : Except Failure (Acc σ × Vals)} {p : Except Failure (Acc σ)}
    (h : Tracks Q r p) {rest : Acc σ → Vals → Except Failure (List Value)}
    {rest' : Except Failure (List Value)}
    (hrest : ∀ acc vals, p = .ok acc → Q vals → rest acc vals = rest') :
    (r.bind fun state => (state.1.finalize).bind fun out =>
        (rest state.1 state.2).bind fun outs => .ok (out :: outs)) =
      (p.bind Acc.finalize).bind fun out => rest'.bind fun outs => .ok (out :: outs) := by
  cases p with
  | error err =>
    have hr : r = .error err := h
    rw [hr]
    rfl
  | ok acc =>
    obtain ⟨vals, hvals, rfl⟩ := h
    simp only [Except.bind, hrest acc vals rfl hvals]

theorem refoldPass_eq (F : FloatArith) (ctx : FrameCtx) (poss : List ℕ) :
    ∀ {vals : Vals}, spec.CacheOk ctx.ordered vals →
      spec.refoldPass F ctx vals poss = poss.mapM (spec.frameResult F ctx) := by
  induction poss with
  | nil => exact fun _ => rfl
  | cons pos poss ih =>
    intro vals h
    rw [refoldPass, List.mapM_cons, frameResult]
    cases hbounds : ctx.bounds F pos spec.frame with
    | error err => rfl
    | ok range =>
      have hfold : Tracks (spec.CacheOk ctx.ordered)
          (foldRange (spec.foldKept ctx pos) (Acc.new spec.plan, vals) range.1 range.2)
          (foldRange (spec.foldFrame ctx pos) (Acc.new spec.plan) range.1 range.2) :=
        Tracks.foldlM (fun acc vals hvals k _ => hvals.foldKept pos acc k) h
      exact tracks_step hfold fun acc vals _ hvals => ih hvals

/-- The accumulator of a count. -/
def counter : AggPlan σ → ℤ → Acc σ
  | .countStar, n => .countStar n
  | .count, n => .count n
  | .other kernel, _ => .other kernel kernel.start

/-- What a value adds to a count. -/
def weight : AggPlan σ → Value → ℤ
  | .count, .null => 0
  | _, _ => 1

theorem fold_counter {plan : AggPlan σ} (h : plan.removable = true) (n : ℤ) (v : Value) :
    (counter plan n).fold v = .ok (counter plan (n + weight plan v)) := by
  cases plan with
  | countStar => rfl
  | count => cases v <;> simp [counter, Acc.fold, weight]
  | other kernel => cases h

theorem unfold_counter {plan : AggPlan σ} (h : plan.removable = true) (n : ℤ) (v : Value) :
    (counter plan n).unfold v = .ok (counter plan (n - weight plan v)) := by
  cases plan with
  | countStar => rfl
  | count => cases v <;> simp [counter, Acc.unfold, weight]
  | other kernel => cases h

theorem counter_zero (plan : AggPlan σ) : counter plan 0 = Acc.new plan := by
  cases plan <;> rfl

variable (spec ordered)

/-- What a row adds to a count. -/
def weightAt (k : ℕ) : ℤ := weight spec.plan ((spec.opval ordered k).toOption.getD .null)

/-- What the rows of an interval add to a count. -/
def weigh (lo hi : ℕ) : ℤ := ((between lo hi).map (spec.weightAt ordered)).sum

/-- The operands of an interval all evaluate. -/
def Evaluates (lo hi : ℕ) : Prop := ∀ k, lo ≤ k → k < hi → ∃ v, spec.opval ordered k = .ok v

variable {spec ordered}

theorem weigh_of_le (h : hi ≤ lo) : spec.weigh ordered lo hi = 0 := by
  rw [weigh, between_of_le h]
  rfl

theorem weigh_append {mid : ℕ} (hlo : lo ≤ mid) (hhi : mid ≤ hi) :
    spec.weigh ordered lo hi = spec.weigh ordered lo mid + spec.weigh ordered mid hi := by
  rw [weigh, between_append hlo hhi, List.map_append, List.sum_append]
  rfl

section

variable (hcount : spec.plan.removable = true)

include hcount

theorem enter_counter {k : ℕ} {v : Value} (hv : spec.opval ordered k = .ok v) (n : ℤ) :
    spec.enter ordered (counter spec.plan n) k =
      .ok (counter spec.plan (n + spec.weightAt ordered k)) := by
  rw [enter, hv, Except.bind, fold_counter hcount, weightAt, hv]
  rfl

variable {ks : List ℕ}

theorem foldlM_counter (hks : ∀ k ∈ ks, ∃ v, spec.opval ordered k = .ok v) :
    ∀ n : ℤ, ks.foldlM (spec.enter ordered) (counter spec.plan n) =
      .ok (counter spec.plan (n + (ks.map (spec.weightAt ordered)).sum)) := by
  induction ks with
  | nil =>
    intro n
    rw [List.map_nil, List.sum_nil, add_zero]
    rfl
  | cons k ks ih =>
    intro n
    obtain ⟨v, hv⟩ := hks k List.mem_cons_self
    rw [List.foldlM_cons, enter_counter hcount hv, List.map_cons, List.sum_cons, ← add_assoc]
    exact ih (fun j hj => hks j (List.mem_cons_of_mem _ hj)) _

theorem foldRange_counter {lo hi : ℕ} (h : spec.Evaluates ordered lo hi) (n : ℤ) :
    foldRange (spec.enter ordered) (counter spec.plan n) lo hi =
      .ok (counter spec.plan (n + spec.weigh ordered lo hi)) :=
  foldlM_counter hcount (fun k hk => h k (mem_between.mp hk).1 (mem_between.mp hk).2) n

theorem evaluates_of_foldlM : ∀ {n : ℤ} {acc : Acc σ},
    ks.foldlM (spec.enter ordered) (counter spec.plan n) = .ok acc →
    ∀ k ∈ ks, ∃ v, spec.opval ordered k = .ok v := by
  induction ks with
  | nil => exact fun _ k hk => absurd hk List.not_mem_nil
  | cons k ks ih =>
    intro n acc h
    rw [List.foldlM_cons] at h
    obtain ⟨acc', hacc, h⟩ := bind_eq_ok.mp h
    obtain ⟨v, hv, -⟩ := bind_eq_ok.mp hacc
    rw [enter_counter hcount hv] at hacc
    cases hacc
    intro j hj
    rcases List.mem_cons.mp hj with rfl | hj
    · exact ⟨v, hv⟩
    · exact ih h j hj

theorem evaluates_of_foldRange {n : ℤ} {acc : Acc σ} {lo hi : ℕ}
    (h : foldRange (spec.enter ordered) (counter spec.plan n) lo hi = .ok acc) :
    spec.Evaluates ordered lo hi := fun k hlo hhi =>
  evaluates_of_foldlM hcount h k (mem_between.mpr ⟨hlo, hhi⟩)

/-- Rows that are folded back are taken off a count. -/
theorem unfoldlM_counter (hks : ∀ k ∈ ks, ∃ v, spec.opval ordered k = .ok v) :
    ∀ {n : ℤ} {vals : Vals}, spec.CacheOk ordered vals →
    Tracks (spec.CacheOk ordered) (ks.foldlM (spec.unfoldAt ordered) (counter spec.plan n, vals))
      (.ok (counter spec.plan (n - (ks.map (spec.weightAt ordered)).sum))) := by
  induction ks with
  | nil =>
    intro n vals h
    rw [List.map_nil, List.sum_nil, sub_zero]
    exact .ok h
  | cons k ks ih =>
    intro n vals h
    obtain ⟨v, hv⟩ := hks k List.mem_cons_self
    have heval := h.evalAt k
    rw [hv] at heval
    obtain ⟨vals', hvals', heval⟩ := heval
    have hw : weight spec.plan v = spec.weightAt ordered k := by
      rw [weightAt, hv]
      rfl
    have hstep : spec.unfoldAt ordered (counter spec.plan n, vals) k =
        .ok (counter spec.plan (n - spec.weightAt ordered k), vals') := by
      rw [unfoldAt, heval, ← hw]
      simp only [bind, Except.bind, unfold_counter hcount]
      rfl
    rw [List.foldlM_cons, hstep, List.map_cons, List.sum_cons, ← sub_sub]
    exact ih (fun j hj => hks j (List.mem_cons_of_mem _ hj)) hvals'

end

/-- What is carried is the fold over the rows it stands for. -/
structure Carried (spec : AggSpec σ) (ordered : List Entry) (c : Carry σ) : Prop where
  le : c.lo ≤ c.hi
  folded : foldRange (spec.enter ordered) (Acc.new spec.plan) c.lo c.hi = .ok c.acc
  cached : spec.CacheOk ordered c.vals

theorem CacheOk.foldRange (h : spec.CacheOk ordered vals) (acc : Acc σ) (lo hi : ℕ) :
    Tracks (spec.CacheOk ordered) (foldRange (spec.foldAt ordered) (acc, vals) lo hi)
      (foldRange (spec.enter ordered) acc lo hi) :=
  Tracks.foldlM (fun acc _ hvals k _ => hvals.foldAt acc k) h

/-- A count that moves right: what leaves is folded back and what enters is folded in. -/
theorem Carried.move_count {c : Carry σ} (h : Carried spec ctx.ordered c)
    (hcount : spec.plan.removable = true) (hlo : c.lo ≤ lo) (hhi : c.hi ≤ hi) :
    Tracks (spec.CacheOk ctx.ordered)
      ((foldRange (spec.unfoldAt ctx.ordered) (c.acc, c.vals) c.lo (min lo c.hi)).bind fun state =>
        foldRange (spec.foldAt ctx.ordered) state (max c.hi lo) hi)
      (foldRange (spec.enter ctx.ordered) (Acc.new spec.plan) lo hi) := by
  have hfolded := h.folded
  rw [← counter_zero] at hfolded ⊢
  have heval := evaluates_of_foldRange hcount hfolded
  rw [foldRange_counter hcount heval, zero_add] at hfolded
  have hmid : c.lo ≤ min lo c.hi := le_min hlo h.le
  have hleaving : ∀ k ∈ between c.lo (min lo c.hi), ∃ v, spec.opval ctx.ordered k = .ok v := fun k hk =>
    heval k (mem_between.mp hk).1 ((mem_between.mp hk).2.trans_le (min_le_right _ _))
  have hleft := unfoldlM_counter hcount hleaving (n := spec.weigh ctx.ordered c.lo c.hi) h.cached
  have hrest : spec.weigh ctx.ordered c.lo c.hi -
      ((between c.lo (min lo c.hi)).map (spec.weightAt ctx.ordered)).sum =
        spec.weigh ctx.ordered (min lo c.hi) c.hi := by
    rw [weigh_append hmid (min_le_right lo c.hi), weigh, add_sub_cancel_left]
  rw [hrest, Except.ok.inj hfolded] at hleft
  obtain ⟨vals, hvals, hleft⟩ := hleft
  rw [foldRange, hleft]
  have hright := hvals.foldRange (counter spec.plan (spec.weigh ctx.ordered (min lo c.hi) c.hi))
    (max c.hi lo) hi
  have hsame : foldRange (spec.enter ctx.ordered)
      (counter spec.plan (spec.weigh ctx.ordered (min lo c.hi) c.hi)) (max c.hi lo) hi =
        foldRange (spec.enter ctx.ordered) (counter spec.plan 0) lo hi := by
    rcases le_total lo c.hi with hcase | hcase
    · have hkept : spec.Evaluates ctx.ordered lo c.hi := fun k hk => heval k (hlo.trans hk)
      rw [min_eq_left hcase, max_eq_left hcase, foldRange_append _ _ hcase hhi,
        foldRange_counter hcount hkept, zero_add]
      rfl
    · rw [min_eq_right hcase, max_eq_right hcase, weigh_of_le le_rfl]
  rw [hsame] at hright
  exact hright

/-- The accumulator moved to the next bounds is the fold over the rows between them. -/
theorem Carried.moveTo {c : Carry σ} (h : Carried spec ctx.ordered c) (hle : lo ≤ hi) :
    Tracks (spec.CacheOk ctx.ordered) (spec.moveTo ctx c lo hi)
      (foldRange (spec.enter ctx.ordered) (Acc.new spec.plan) lo hi) := by
  unfold AggSpec.moveTo
  split
  · exact h.cached.foldRange _ lo hi
  · rename_i hkeep
    simp only [Bool.or_eq_true, Bool.and_eq_true, Bool.not_eq_true', decide_eq_true_eq, not_or, not_and,
      not_lt] at hkeep
    obtain ⟨⟨hleft, hlo⟩, hhi⟩ := hkeep
    by_cases hcount : spec.plan.removable = true
    · exact h.move_count hcount hlo hhi
    · -- the left edge stays, and the rows on the right are folded on
      have heq : lo = c.lo := le_antisymm (hleft (Bool.eq_false_iff.mpr hcount)) hlo
      subst heq
      rw [foldRange_of_le _ _ (min_le_left _ _), max_eq_left h.le, foldRange_append _ _ h.le hhi,
        h.folded]
      exact h.cached.foldRange _ c.hi hi

theorem foldFrame_kept (hexclude : spec.exclude = .noOthers) (hfilter : spec.filter = none)
    (pos : ℕ) : spec.foldFrame ctx pos = spec.enter ctx.ordered := by
  funext acc k
  rw [foldFrame, hexclude, FrameCtx.isExcluded, foldRunning, filterPass, hfilter]
  rfl

theorem slidingPass_eq (F : FloatArith) (ctx : FrameCtx) (hexclude : spec.exclude = .noOthers)
    (hfilter : spec.filter = none) (poss : List ℕ) :
    ∀ {c : Carry σ}, Carried spec ctx.ordered c →
      spec.slidingPass F ctx c poss = poss.mapM (spec.frameResult F ctx) := by
  induction poss with
  | nil => exact fun _ => rfl
  | cons pos poss ih =>
    intro c h
    rw [slidingPass, List.mapM_cons, frameResult, foldFrame_kept hexclude hfilter]
    cases hbounds : ctx.bounds F pos spec.frame with
    | error err => rfl
    | ok range =>
      have hle := bounds_le hbounds
      exact tracks_step (h.moveTo hle) fun acc vals hacc hvals =>
        ih (c := ⟨acc, range.1, range.2, vals⟩) ⟨hle, hacc, hvals⟩

/-- The running pass over the groups that lie from `a` on. -/
theorem runningPass_eq (F : FloatArith) (ctx : FrameCtx) (hframe : spec.frame = none)
    (groups : List (ℕ × ℕ)) : ∀ {a : ℕ} {acc : Acc σ}, Groups.Tiled ctx.np a groups →
      (∀ pos, a ≤ pos → ctx.peerEnd pos = (Groups.locate groups pos).2.2) →
      foldRange (spec.foldRunning ctx.ordered) (Acc.new spec.plan) 0 a = .ok acc →
      spec.runningPass ctx.ordered acc groups = (between a ctx.np).mapM (spec.frameResult F ctx) := by
  have hexclude : spec.exclude = .noOthers := by rw [exclude, hframe]
  have hkept : ∀ pos, spec.foldFrame ctx pos = spec.foldRunning ctx.ordered := by
    intro pos
    funext acc k
    rw [foldFrame, hexclude]
    rfl
  induction groups with
  | nil =>
    intro a acc htiled _ _
    rw [between_of_le htiled.ge]
    rfl
  | cons span groups ih =>
    obtain ⟨start, finish⟩ := span
    rintro a acc ⟨rfl, hlt, htiled⟩ hpeer hacc
    have hprefix : ∀ pos ∈ between start finish, spec.frameResult F ctx pos =
        (foldRange (spec.foldRunning ctx.ordered) acc start finish).bind Acc.finalize := by
      intro pos hpos
      obtain ⟨hge, hpos⟩ := mem_between.mp hpos
      have hend : ctx.peerEnd pos = finish := by
        rw [hpeer pos hge, Groups.locate_first ⟨hge, hpos⟩]
      rw [frameResult, hframe, FrameCtx.bounds, hkept, hend]
      simp only [bind, Except.bind]
      rw [foldRange_append _ _ (Nat.zero_le start) hlt.le, hacc]
      rfl
    have hne : between start finish ≠ [] := by
      intro hnil
      have hlen := congrArg List.length hnil
      rw [length_between, List.length_nil] at hlen
      omega
    rw [runningPass, between_append hlt.le htiled.le, List.mapM_append, mapM_same hne hprefix,
      length_between]
    cases hfold : foldRange (spec.foldRunning ctx.ordered) acc start finish with
    | error err => rfl
    | ok acc' =>
      have hnext := @ih finish acc' htiled (fun pos hpos => by
        rw [hpeer pos (hlt.le.trans hpos), Groups.locate_rest (by omega)]) (by
        rw [foldRange_append _ _ (Nat.zero_le start) hlt.le, hacc]
        exact hfold)
      simp only [bind, Except.bind, hnext]
      cases acc'.finalize <;> rfl

/-- The results of a partition are those of a new fold over the rows of each row's frame, in the sorted
    order, and the default frame is from the start of the partition to the last peer. -/
theorem results_eq_frames {types : ℕ → ColType} {order : List Sorts.SortKey} {ordered : List Entry}
    (hs : Sorted types order ordered) (F : FloatArith) (spec : AggSpec σ) :
    spec.results F (FrameCtx.new ordered order) =
        (List.range ordered.length).mapM (spec.frameResult F (FrameCtx.new ordered order)) ∧
      ∀ pos (hpos : pos < ordered.length),
        (FrameCtx.new ordered order).bounds F pos none =
            .ok (0, (FrameCtx.new ordered order).peerEnd pos) ∧
          ∀ i (hi : i < ordered.length), i < (FrameCtx.new ordered order).peerEnd pos ↔
            cmpWindowRows order ordered[i] ordered[pos] ≠ .gt := by
  refine ⟨?_, fun pos hpos => ⟨rfl, fun i hi => lt_peerEnd_iff hs hi hpos⟩⟩
  unfold results
  split
  · rename_i hframe
    have htiled : Groups.Tiled (FrameCtx.new ordered order).np 0 (FrameCtx.new ordered order).groupSpans :=
      Groups.tiled_spans _ _
    rw [runningPass_eq F (FrameCtx.new ordered order) hframe _ htiled (fun _ _ => rfl)
      (foldRange_of_le _ _ le_rfl), between, ← List.range_eq_range']
    rfl
  · split
    · exact refoldPass_eq F (FrameCtx.new ordered order) _ cacheOk_start
    · rename_i hplain
      rw [not_or, not_not, Bool.not_eq_true, Option.isSome_eq_false_iff, Option.isNone_iff_eq_none]
        at hplain
      exact slidingPass_eq F (FrameCtx.new ordered order) hplain.1 hplain.2 _
        ⟨le_rfl, foldRange_of_le _ _ le_rfl, cacheOk_start⟩

/-- The count of a column over each row and the one before it. -/
theorem results_eq_frames_pairs :
    (AggSpec.mk (.count : AggPlan Unit) (some fun row => .ok (row.headD .null)) none
        (some ⟨.rows, .preceding (.int 1), .currentRow, .noOthers⟩)).results
      ⟨fun _ => 0, fun x _ => x, fun x _ => x⟩
      (FrameCtx.new [([], [.int 1]), ([], [.int 2]), ([], [.null])] [⟨0, false, false, none⟩]) =
    .ok [.int 1, .int 2, .int 1] := by
  have hsorted : Sorted (fun _ => .scalar .int64) [⟨0, false, false, none⟩]
      [([], [.int 1]), ([], [.int 2]), ([], [.null])] := by
    refine ⟨by decide, fun e he => ?_, by decide⟩
    simp only [List.mem_cons, List.not_mem_nil, or_false] at he
    rcases he with rfl | rfl | rfl <;> refine ⟨fun k hk => ?_, rfl⟩ <;>
      cases List.mem_singleton.mp hk
    · exact .inr trivial
    · exact .inr trivial
    · exact .inl rfl
  exact (results_eq_frames hsorted _ _).1.trans (by rfl)

end AggSpec

end Jed.Window
