import Jed.Host.Site

/-!
# Sites with and without prefetching

A site that prefetches gives the rows, errors and charges of one that does not, from any source, whatever
the size of its windows and batches.
-/

namespace Jed.Host

open Runs

variable {V μ ε ς : Type} {w : World V μ ε} {st : Stages V μ ε ς} {nodes : List (Call V)}

/-- A site whose batches are right for some rows, and the same without batches. -/
structure Abreast (w : World V μ ε) (nodes : List (Call V)) (rows : List (Row V))
    (s t : Site V μ ε ς) : Prop where
  meter : s.meter = t.meter
  progress : s.progress = t.progress
  filter : ∀ b ∈ s.filter, BatchOk w nodes rows b
  project : ∀ b ∈ s.project, BatchOk w nodes rows b
  bareFilter : t.filter = none
  bareProject : t.project = none

variable {rows : List (Row V)}

theorem meterM_lockstep {α : Type} (work : μ → Except ε α × μ) :
    Lockstep (Abreast w nodes rows (ς := ς)) (meterM work) (meterM work) := by
  intro s t hst
  refine ⟨?_, ?_, hst.progress, hst.filter, hst.project, hst.bareFilter, hst.bareProject⟩
  · change (work s.meter).1 = (work t.meter).1
    rw [hst.meter]
  · change (work s.meter).2 = (work t.meter).2
    rw [hst.meter]

theorem progressM_lockstep {α : Type} (work : Progress V ς → Except ε α × Progress V ς) :
    Lockstep (Abreast w nodes rows) (progressM work) (progressM work) := by
  intro s t hst
  refine ⟨?_, hst.meter, ?_, hst.filter, hst.project, hst.bareFilter, hst.bareProject⟩
  · change (work s.progress).1 = (work t.progress).1
    rw [hst.progress]
  · change (work s.progress).2 = (work t.progress).2
    rw [hst.progress]

theorem beside_setRow (hw : w.KernelsRowWise) {m m' : μ} (hm : m = m') {ob : Option (HostBatch V ε)}
    (h : ∀ b ∈ ob, BatchOk w nodes rows b) (batchRows i last : ℕ) (headroom : Option ℤ) :
    Beside w nodes rows i
      (m, ob.map fun b => w.setRow batchRows b i rows last headroom) (m', none) := by
  refine ⟨hm, rfl, fun b hb => ?_⟩
  obtain ⟨b', hb', rfl⟩ := Option.map_eq_some_iff.mp hb
  exact batchOk_setRow hw (h b' hb') batchRows i last headroom

theorem onFilter_lockstep (hw : w.KernelsRowWise) {α : Type} {i last : ℕ} {x : EvalM V μ ε α}
    (h : Lockstep (Beside w nodes rows i) x x) :
    Lockstep (Abreast w nodes rows) (onFilter w st (some ⟨rows, i, last⟩) x) (onFilter w st none x) := by
  intro s t hst
  have hbare : (t.filter.map fun b => b) = none := by rw [hst.bareFilter]; rfl
  have hside := beside_setRow hw hst.meter hst.filter st.batchRows i last (w.headroom s.meter)
  obtain ⟨hvalue, hmeter, hnone, hbatch⟩ := h _ _ hside
  unfold onFilter
  dsimp only
  rw [hbare]
  exact ⟨hvalue, hmeter, hst.progress, fun b hb => (hbatch b hb).2, hst.project, hnone, hst.bareProject⟩

theorem onProject_lockstep (hw : w.KernelsRowWise) {α : Type} {i last : ℕ} {x : EvalM V μ ε α}
    (h : Lockstep (Beside w nodes rows i) x x) :
    Lockstep (Abreast w nodes rows) (onProject w st (some ⟨rows, i, last⟩) x)
      (onProject w st none x) := by
  intro s t hst
  have hbare : (t.project.map fun b => b) = none := by rw [hst.bareProject]; rfl
  have hside := beside_setRow hw hst.meter hst.project st.batchRows i last (w.headroom s.meter)
  obtain ⟨hvalue, hmeter, hnone, hbatch⟩ := h _ _ hside
  unfold onProject
  dsimp only
  rw [hbare]
  exact ⟨hvalue, hmeter, hst.progress, hst.filter, fun b hb => (hbatch b hb).2, hst.bareFilter, hnone⟩

/-- The calls of a plan. -/
def Plan.calls (plan : Plan V) : List (Call V) :=
  callsAll plan.filter.toList ++ callsAll plan.projections

/-- A row's pipeline with its batches made current at a window place of the row. -/
def PipelineOk (w : World V μ ε) (nodes : List (Call V))
    (process : Option (Place V) → Row V → SiteM V μ ε ς Bool) : Prop :=
  ∀ (rows : List (Row V)) (i last : ℕ) (row : Row V), rows[i]? = some row →
    Lockstep (Abreast w nodes rows) (process (some ⟨rows, i, last⟩) row) (process none row)

theorem produce_lockstep (plan : Plan V) (projected : List V) :
    Lockstep (Abreast w nodes rows) (produce st plan projected) (produce st plan projected) :=
  (meterM_lockstep _).bind fun _ => progressM_lockstep _

variable {plan : Plan V}

theorem processStreamingRow_ok (hw : w.KernelsRowWise) (st : Stages V μ ε ς) (haddr : Addressed plan.calls) :
    PipelineOk w plan.calls (processStreamingRow w st plan) := by
  intro rows i last row hrow
  unfold processStreamingRow
  refine (meterM_lockstep _).bind fun _ => (meterM_lockstep _).bind fun _ => ?_
  refine Lockstep.ofExcept_bind fun row' hresolve => ?_
  have hres := st.resolves row row' hresolve
  have hproject : Lockstep (Beside w plan.calls rows i) (w.evalAll row' plan.projections)
      (w.evalAll row' plan.projections) :=
    evalAll_lockstep haddr hrow hres _ fun c hc => List.mem_append_right _ hc
  have hfilter : Lockstep (Abreast w plan.calls rows) (keepRow w st plan (some ⟨rows, i, last⟩) row')
      (keepRow w st plan none row') := by
    unfold keepRow
    cases hf : plan.filter with
    | none => exact Lockstep.pure _
    | some filter =>
      refine onFilter_lockstep hw (evalFilter_lockstep haddr hrow hres _ fun c hc => ?_)
      have hmem : c ∈ callsAll plan.filter.toList := by
        rw [hf, Option.toList_some, callsAll]
        exact List.mem_append_left _ hc
      exact List.mem_append_left _ hmem
  refine hfilter.bind fun keep => Lockstep.ite (Lockstep.pure _) (Lockstep.ite ?_ ?_)
  · refine (onProject_lockstep hw hproject).bind fun projected => (meterM_lockstep _).bind fun _ => ?_
    refine (progressM_lockstep _).observe.bind fun inserted => (meterM_lockstep _).bind fun fresh => ?_
    refine Lockstep.ite (Lockstep.pure _) ((progressM_lockstep _).bind fun skipped => ?_)
    exact Lockstep.ite (Lockstep.pure _) ((meterM_lockstep _).bind fun _ => produce_lockstep _ _)
  · refine (progressM_lockstep _).bind fun skipped => Lockstep.ite (Lockstep.pure _) ?_
    exact (meterM_lockstep _).bind fun _ => (onProject_lockstep hw hproject).bind fun _ =>
      produce_lockstep _ _

theorem emitRow_ok (hw : w.KernelsRowWise) (st : Stages V μ ε ς)
    (haddr : Addressed plan.calls) : PipelineOk w plan.calls (emitRow w st plan) := by
  intro rows i last row hrow
  have hproject : Lockstep (Beside w plan.calls rows i) (w.evalAll row plan.projections)
      (w.evalAll row plan.projections) :=
    evalAll_lockstep haddr hrow (fun _ _ h => h) _ fun c hc => List.mem_append_right _ hc
  exact (meterM_lockstep _).bind fun _ => (meterM_lockstep _).bind fun _ =>
    (onProject_lockstep hw hproject).bind fun _ => progressM_lockstep _

/-- The rows, errors and end that a window and a source have yet to give. -/
def ReadAhead.pending (ra : ReadAhead V ε) (source : Source V ε) : Source V ε :=
  (ra.rows.drop ra.pos).map Except.ok ++
    match ra.deferred with
    | some e => .error e :: source
    | none => if ra.ended then [] else source

/-- What a filling read and left is the source. -/
theorem fill_eq (n : ℕ) (source : Source V ε) :
    (fill n source).rows.map Except.ok ++
        (match (fill n source).deferred with
          | some e => .error e :: (fill n source).rest
          | none => if (fill n source).ended then [] else (fill n source).rest) = source := by
  induction n generalizing source with
  | zero => rfl
  | succ n ih =>
    cases source with
    | nil => rfl
    | cons r rest =>
      cases r with
      | error e => rfl
      | ok row => exact congrArg (Except.ok row :: ·) (ih rest)

/-- `next` gives what comes first of what is pending. -/
theorem next_pending (ra : ReadAhead V ε) (hpos : ra.pos ≤ ra.rows.length) (cap : ℕ) (source : Source V ε) :
    match ra.pending source with
    | [] => ∃ ra' source', ra.next cap source = (.ok none, ra', source') ∧
        (ra.refills = true ∨ ra'.rows = ra.rows)
    | .error e :: _ => ∃ ra' source', ra.next cap source = (.error e, ra', source')
    | .ok row :: rest => ∃ i ra' source', ra.next cap source = (.ok (some i), ra', source') ∧
        ra'.rows[i]? = some row ∧ ra'.pending source' = rest ∧ ra'.pos ≤ ra'.rows.length ∧
        (ra.refills = true ∨ ra'.rows = ra.rows) := by
  unfold ReadAhead.next ReadAhead.pending ReadAhead.refills
  by_cases hspent : ra.pos = ra.rows.length
  · rw [List.drop_eq_nil_of_le (Nat.le_of_eq hspent.symm), List.map_nil, List.nil_append, if_pos hspent]
    cases hdeferred : ra.deferred with
    | some e => exact ⟨_, _, rfl⟩
    | none =>
      by_cases hended : ra.ended = true
      · rw [if_pos hended, if_pos hended]
        exact ⟨_, _, rfl, .inr rfl⟩
      · rw [if_neg hended, if_neg hended]
        obtain ⟨n, hn⟩ : ∃ n, max cap 1 = n + 1 := ⟨max cap 1 - 1, by omega⟩
        rw [hn]
        cases source with
        | nil => exact ⟨_, _, rfl, .inl (by simp [hspent, hended])⟩
        | cons r rest =>
          cases r with
          | error e => exact ⟨_, _, rfl⟩
          | ok row =>
            refine ⟨0, _, _, rfl, rfl, fill_eq n rest, Nat.succ_le_succ (Nat.zero_le _), .inl ?_⟩
            simp [hspent, hended]
  · have hlt : ra.pos < ra.rows.length := by omega
    rw [List.drop_eq_getElem_cons hlt, List.map_cons, List.cons_append, if_neg hspent]
    exact ⟨ra.pos, _, _, rfl, List.getElem?_eq_getElem hlt, rfl, hlt, .inr rfl⟩

/-- Batches stay right where the window stays, and where it is filled anew they forget. -/
theorem Abreast.refilled {s t : Site V μ ε ς} {ra : ReadAhead V ε} (h : Abreast w nodes ra.rows s t)
    {rows' : List (Row V)} (hrows : ra.refills = true ∨ rows' = ra.rows) :
    Abreast w nodes rows' (s.refilled ra) t := by
  unfold Site.refilled
  split
  · refine ⟨h.meter, h.progress, fun b hb => ?_, fun b hb => ?_, h.bareFilter, h.bareProject⟩
    · obtain ⟨b', hb', rfl⟩ := Option.map_eq_some_iff.mp hb
      exact batchOk_reset (h.filter b' hb')
    · obtain ⟨b', hb', rfl⟩ := Option.map_eq_some_iff.mp hb
      exact batchOk_reset (h.project b' hb')
  · rename_i hrefills
    rcases hrows with hrows | rfl
    · exact absurd hrows hrefills
    · exact h

variable {process : Option (Place V) → Row V → SiteM V μ ε ς Bool}

/-- Reading ahead gives what pulling row by row gives. -/
theorem scanAhead_eq (cap : Site V μ ε ς → ℕ) (hprocess : PipelineOk w nodes process) (left : Source V ε) :
    ∀ (fuel : ℕ) (ra : ReadAhead V ε) (source : Source V ε) (s t : Site V μ ε ς),
      ra.pos ≤ ra.rows.length → ra.pending source = left → left.length < fuel →
      Abreast w nodes ra.rows s t →
      ∃ rows', Abreast w nodes rows' (scanAhead cap process fuel ra source s).2
          (scanRows process left t).2 ∧
        match (scanAhead cap process fuel ra source s).1 with
        | .error e => (scanRows process left t).1 = .error e
        | .ok none => (scanRows process left t).1 = .ok false
        | .ok (some ra') => (scanRows process left t).1 = .ok true ∧ ra'.rows = rows' := by
  induction left with
  | nil =>
    intro fuel ra source s t hpos hpending hfuel hst
    obtain ⟨fuel, rfl⟩ : ∃ n, fuel = n + 1 := ⟨fuel - 1, by omega⟩
    have hnext := next_pending ra hpos (cap s) source
    rw [hpending] at hnext
    obtain ⟨ra', source', hnext, hrows⟩ := hnext
    rw [scanAhead, hnext]
    exact ⟨ra'.rows, hst.refilled hrows, rfl, rfl⟩
  | cons r left ih =>
    intro fuel ra source s t hpos hpending hfuel hst
    obtain ⟨fuel, rfl⟩ : ∃ n, fuel = n + 1 := ⟨fuel - 1, by omega⟩
    have hnext := next_pending ra hpos (cap s) source
    rw [hpending] at hnext
    cases r with
    | error e =>
      obtain ⟨ra', source', hnext⟩ := hnext
      rw [scanAhead, hnext]
      exact ⟨ra.rows, hst.refilled (.inr rfl), rfl⟩
    | ok row =>
      obtain ⟨i, ra', source', hnext, hrow, hrest, hpos', hrows⟩ := hnext
      obtain ⟨hvalue, hafter⟩ := hprocess ra'.rows i ra'.rows.length row hrow _ _ (hst.refilled hrows)
      rw [scanAhead, hnext, scanRows]
      simp only [hrow]
      cases hahead : process (some ⟨ra'.rows, i, ra'.rows.length⟩) row (s.refilled ra) with
      | mk r s' =>
        cases hplain : process none row t with
        | mk r' t' =>
          rw [hahead, hplain] at hvalue hafter
          cases hvalue
          cases r with
          | error e =>
            rw [bind_error hplain]
            exact ⟨ra'.rows, hafter, rfl⟩
          | ok more =>
            rw [bind_ok hplain]
            cases more with
            | false => exact ⟨ra'.rows, hafter, rfl⟩
            | true => exact ih fuel ra' source' s' t' hpos' hrest (Nat.lt_of_succ_lt_succ hfuel) hafter

theorem openInterval_lockstep (canPull : Bool) (interval : Interval V ε) :
    Lockstep (Abreast w nodes rows (ς := ς)) (openInterval w canPull interval)
      (openInterval w canPull interval) :=
  (Lockstep.ofExcept _).bind fun _ => (meterM_lockstep _).bind fun _ => Lockstep.pure _

/-- The sites after the same run. -/
def Agree (r r' : Except ε Bool × Site V μ ε ς) : Prop :=
  r.1 = r'.1 ∧ r.2.meter = r'.2.meter ∧ r.2.progress = r'.2.progress

theorem scanIntervalsAhead_eq {canPull : Bool} {cap : Site V μ ε ς → ℕ}
    (hprocess : PipelineOk w nodes process)
    (intervals : List (Interval V ε)) :
    ∀ (ra : ReadAhead V ε) (s t : Site V μ ε ς), Abreast w nodes ra.rows s t →
      Agree (scanIntervalsAhead w canPull process cap ra intervals s)
        (scanIntervals w canPull process intervals t) := by
  induction intervals with
  | nil => exact fun ra s t hst => ⟨rfl, hst.meter, hst.progress⟩
  | cons interval intervals ih =>
    intro ra s t hst
    obtain ⟨hvalue, hopened⟩ := openInterval_lockstep canPull interval s t hst
    rw [scanIntervalsAhead, scanIntervals]
    cases hs : openInterval w canPull interval s with
    | mk r s' =>
      cases ht : openInterval w canPull interval t with
      | mk r' t' =>
        rw [hs, ht] at hvalue hopened
        cases hvalue
        cases r with
        | error e =>
          rw [bind_error hs, bind_error ht]
          exact ⟨rfl, hopened.meter, hopened.progress⟩
        | ok pulls =>
          rw [bind_ok hs, bind_ok ht]
          cases pulls with
          | false => exact ⟨rfl, hopened.meter, hopened.progress⟩
          | true =>
            have hpending : ra.restart.pending interval.source = interval.source := by
              unfold ReadAhead.pending ReadAhead.restart
              simp
            obtain ⟨rows', hscanned, hresult⟩ := scanAhead_eq cap hprocess interval.source
              (interval.source.length + 1) ra.restart interval.source s' t' (Nat.le_refl _) hpending
              (Nat.lt_succ_self _) hopened
            cases hahead : scanAhead cap process (interval.source.length + 1) ra.restart
                interval.source s' with
            | mk r s'' =>
              cases hplain : scanRows process interval.source t' with
              | mk r' t'' =>
                rw [hahead, hplain] at hscanned hresult
                simp only [Bool.not_true, Bool.false_eq_true, if_false]
                cases r with
                | error e =>
                  cases hresult
                  rw [bind_error hahead, bind_error hplain]
                  exact ⟨rfl, hscanned.meter, hscanned.progress⟩
                | ok window =>
                  cases window with
                  | none =>
                    cases hresult
                    rw [bind_ok hahead, bind_ok hplain]
                    exact ⟨rfl, hscanned.meter, hscanned.progress⟩
                  | some ra' =>
                    obtain ⟨htrue, hrows⟩ := hresult
                    cases htrue
                    cases hrows
                    rw [bind_ok hahead, bind_ok hplain]
                    exact ih ra' s'' t'' hscanned

theorem emitHeld_lockstep (hprocess : PipelineOk w nodes process) (last : ℕ) (is : List ℕ) :
    Lockstep (Abreast w nodes rows) (emitHeld process rows (fun i => some ⟨rows, i, last⟩) is)
      (emitHeld process rows (fun _ => none) is) := by
  induction is with
  | nil => exact Lockstep.pure _
  | cons i is ih =>
    rw [emitHeld, emitHeld]
    cases hrow : rows[i]? with
    | none => exact Lockstep.pure _
    | some row => exact (hprocess rows i last row hrow).bind fun _ => Lockstep.ite ih (Lockstep.pure _)

/-- A site as it starts. -/
theorem abreast_start (w : World V μ ε) (plan : Plan V) (rows : List (Row V)) (meter : μ)
    (progress : Progress V ς) (filter project : Option (HostBatch V ε))
    (hfilter : ∀ b ∈ filter, w.filterBatch plan = some b)
    (hproject : ∀ b ∈ project, w.projectBatch plan = some b) :
    Abreast w plan.calls rows ⟨meter, filter, project, progress⟩ ⟨meter, none, none, progress⟩ := by
  refine ⟨rfl, rfl, fun b hb => ?_, fun b hb => ?_, rfl, rfl⟩
  · obtain ⟨f, hf, hbatch⟩ := Option.bind_eq_some_iff.mp (hfilter b hb)
    refine batchOk_forExprs (fun c hc => List.mem_append_left _ ?_) hbatch
    rwa [hf]
  · exact batchOk_forExprs (fun c hc => List.mem_append_right _ hc) (hproject b hb)

theorem agree_of_abreast {r r' : Except ε Bool × Site V μ ε ς} (h : r.1 = r'.1)
    (hsite : Abreast w nodes rows r.2 r'.2) : Agree r r' := ⟨h, hsite.meter, hsite.progress⟩

theorem streamingScan_eq (hw : w.KernelsRowWise) (st : Stages V μ ε ς)
    (haddr : Addressed plan.calls) (cap : Site V μ ε ς → ℕ) (intervals : List (Interval V ε)) (meter : μ)
    (progress : Progress V ς) :
    Agree (streamingScan w st plan cap intervals meter progress)
      (scanIntervals w (decide (plan.limit ≠ some 0)) (processStreamingRow w st plan) intervals
        ⟨meter, none, none, progress⟩) := by
  unfold streamingScan
  dsimp only
  split
  · exact ⟨rfl, rfl, rfl⟩
  · exact scanIntervalsAhead_eq (processStreamingRow_ok hw st haddr) intervals _ _ _
      (abreast_start w plan _ meter progress _ _ (fun b hb => hb) fun b hb => hb)

theorem pulledEmitter_eq (hw : w.KernelsRowWise) (st : Stages V μ ε ς)
    (haddr : Addressed plan.calls) (cap : Site V μ ε ς → ℕ) (source : Source V ε) (meter : μ)
    (progress : Progress V ς) :
    Agree (pulledEmitter w st plan cap source meter progress)
      (scanRows (emitRow w st plan) source ⟨meter, none, none, progress⟩) := by
  unfold pulledEmitter
  cases hbatch : w.projectBatch plan with
  | none => exact ⟨rfl, rfl, rfl⟩
  | some batch =>
    have hpending : (⟨[], 0, none, false⟩ : ReadAhead V ε).pending source = source := rfl
    have hstart := abreast_start w plan [] meter progress none (some batch)
      (fun b hb => by cases hb) fun b hb => by cases hb; exact hbatch
    obtain ⟨rows', hscanned, hresult⟩ := scanAhead_eq cap (emitRow_ok hw st haddr) source
      (source.length + 1) ⟨[], 0, none, false⟩ source _ _ (Nat.le_refl _) hpending (Nat.lt_succ_self _)
      hstart
    dsimp only
    cases hahead : scanAhead cap (emitRow w st plan) (source.length + 1) ⟨[], 0, none, false⟩ source
        ⟨meter, none, some batch, progress⟩ with
    | mk r s' =>
      rw [hahead] at hscanned hresult
      cases r with
      | error e =>
        rw [bind_error hahead]
        exact agree_of_abreast hresult.symm hscanned
      | ok window =>
        rw [bind_ok hahead]
        cases window with
        | none => exact agree_of_abreast hresult.symm hscanned
        | some ra => exact agree_of_abreast hresult.1.symm hscanned

theorem heldEmitter_eq (hw : w.KernelsRowWise) (st : Stages V μ ε ς)
    (haddr : Addressed plan.calls) (rows : List (Row V)) (last : ℕ) (places : List ℕ) (meter : μ)
    (progress : Progress V ς) :
    Agree (heldEmitter w st plan rows last places meter progress)
      (emitHeld (emitRow w st plan) rows (fun _ => none) places ⟨meter, none, none, progress⟩) := by
  obtain ⟨hvalue, hsite⟩ := emitHeld_lockstep (emitRow_ok hw st haddr) last places _ _
    (abreast_start w plan rows meter progress none _ (fun b hb => by cases hb) fun b hb => hb)
  exact agree_of_abreast hvalue hsite

/-- Every site that prefetches the calls of its expressions gives the rows, the error and the charges that
    calling each kernel in the course of evaluation gives: a scan over intervals that may fail anywhere,
    and the emitters that pull their rows or hold them. -/
theorem prefetch_replays (w : World V μ ε) (st : Stages V μ ε ς) (plan : Plan V)
    (cap : Site V μ ε ς → ℕ) (intervals : List (Interval V ε)) (source : Source V ε)
    (rows : List (Row V)) (last : ℕ) (places : List ℕ) (meter : μ) (progress : Progress V ς)
    (hw : w.KernelsRowWise) (haddr : Addressed plan.calls) :
    Agree (streamingScan w st plan cap intervals meter progress)
        (scanIntervals w (decide (plan.limit ≠ some 0)) (processStreamingRow w st plan) intervals
          ⟨meter, none, none, progress⟩) ∧
      Agree (pulledEmitter w st plan cap source meter progress)
        (scanRows (emitRow w st plan) source ⟨meter, none, none, progress⟩) ∧
      Agree (heldEmitter w st plan rows last places meter progress)
        (emitHeld (emitRow w st plan) rows (fun _ => none) places ⟨meter, none, none, progress⟩) :=
  ⟨streamingScan_eq hw st haddr cap intervals meter progress,
    pulledEmitter_eq hw st haddr cap source meter progress,
    heldEmitter_eq hw st haddr rows last places meter progress⟩

/-- A kernel that adds one, and fails at 3. -/
def successor : List Int → Except Nat Int
  | [3] => .error 22
  | args => .ok (args.headD 0 + 1)

/-- A registry with one batch kernel, and a meter that counts. -/
def countingWorld : World Int Int Nat where
  values := ⟨-1, (· = -1), (· = 1), id, id, fun _ => rfl, fun _ => rfl⟩
  functions := fun _ =>
    ⟨[.other], .immutable, 1,
      .batch fun cols => eachRow successor (rowsOf cols ((cols.head?.map List.length).getD 1)),
      fun _ _ => 0⟩
  params := fun _ => 0
  outer := fun _ _ => .fetched 0
  resolve := fun _ => .ok 0
  charge := fun units m => m + units
  guard := fun _ => .ok ()
  headroom := fun _ => none
  checkResult := fun _ _ => .ok ()
  strategy := fun _ _ => .done (.ok 0)
  andCost := 1

def countingStages : Stages Int Int Nat Unit where
  storageRowRead := 1
  rowProduced := 1
  batchRows := 2
  resolveColumns := .ok
  resolves := fun row row' h i v hv => by
    cases h
    exact hv
  chargeHashKeys := fun _ m => (.ok (), m)
  insert := fun s _ => (.ok true, s)
  costFirst := fun r m => (r, m)
  admitRow := fun _ m => (.ok (), m)

theorem kernelsRowWise_counting : countingWorld.KernelsRowWise := by
  intro id kernel h
  cases h
  refine ⟨successor, fun cols n hn hlen hzero => ?_⟩
  cases cols with
  | nil => rw [hzero rfl]; rfl
  | cons c cols =>
    have hlength : (((c :: cols).head?.map List.length).getD 1) = n := hlen c List.mem_cons_self
    change eachRow successor (rowsOf (c :: cols) (((c :: cols).head?.map List.length).getD 1)) = _
    rw [hlength]

/-- A plan that calls the kernel on the first column. -/
def countingPlan : Plan Int := ⟨none, [.hostFunc 0 0 0 [.column 0]], false, 0, none⟩

/-- Three rows, the last of which fails in the kernel, and an error of the source after them. -/
def countingInterval : Interval Int Nat :=
  ⟨.ok 1, [.ok fun _ => .fetched 1, .ok fun _ => .fetched 2, .ok fun _ => .fetched 3, .error 58]⟩

theorem addressed_counting : Addressed countingPlan.calls := by
  intro c hc c' hc' _
  rw [List.mem_singleton.mp hc, List.mem_singleton.mp hc']

theorem prefetch_replays_counting :
    Agree
      (streamingScan countingWorld countingStages countingPlan (fun _ => 64) [countingInterval] 0
        ⟨0, (), []⟩)
      (scanIntervals countingWorld true (processStreamingRow countingWorld countingStages countingPlan)
        [countingInterval] ⟨0, none, none, ⟨0, (), []⟩⟩) :=
  (prefetch_replays countingWorld countingStages countingPlan (fun _ => 64) [countingInterval] []
    [] 0 [] 0 ⟨0, (), []⟩ kernelsRowWise_counting addressed_counting).1

end Jed.Host
