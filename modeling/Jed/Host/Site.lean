import Jed.Host.Replay

/-!
# Sites

The sites that evaluate expressions over their rows: the row pipeline of the streaming scan
(`exec_scan.rs:40-148`), the read-ahead window (`host_batch.rs:288-428`), and the emitters that pull
their rows or hold them (`exec_helpers.rs:595-790`).
-/

namespace Jed.Host

open Runs

variable {V μ ε ς : Type}

/-- What a site has come to, the meter and the batches apart. -/
structure Progress (V ς : Type) where
  passed : Int
  seen : ς
  out : List (List V)

structure Site (V μ ε ς : Type) where
  meter : μ
  filter : Option (HostBatch V ε)
  project : Option (HostBatch V ε)
  progress : Progress V ς

abbrev SiteM (V μ ε ς α : Type) := Run (Site V μ ε ς) ε α

/-- The rest of the executor, as far as a row's pipeline calls it. -/
structure Stages (V μ ε ς : Type) where
  storageRowRead : Int
  rowProduced : Int
  batchRows : Nat
  /-- `resolve_columns`, over the touched columns. -/
  resolveColumns : Row V → Except ε (Row V)
  resolves : ∀ row row', resolveColumns row = .ok row' → Resolves row row'
  /-- `charge_hash_keys`. -/
  chargeHashKeys : List V → μ → Except ε Unit × μ
  insert : ς → List V → Except ε Bool × ς
  /-- `cost_first`. -/
  costFirst : Except ε Bool → μ → Except ε Bool × μ
  /-- `admit_row`. -/
  admitRow : List V → μ → Except ε Unit × μ

/-- `SelectPlan`, as far as a scan reads it. -/
structure Plan (V : Type) where
  filter : Option (RExpr V)
  projections : List (RExpr V)
  distinct : Bool
  offset : Int
  limit : Option Int

/-- The rows of a site, the index of the current one, and the end of those it evaluates. -/
structure Place (V : Type) where
  rows : List (Row V)
  index : Nat
  last : Nat

def meterM {α : Type} (work : μ → Except ε α × μ) : SiteM V μ ε ς α := fun t =>
  ((work t.meter).1, { t with meter := (work t.meter).2 })

def progressM {α : Type} (work : Progress V ς → Except ε α × Progress V ς) : SiteM V μ ε ς α := fun t =>
  ((work t.progress).1, { t with progress := (work t.progress).2 })

section
variable (w : World V μ ε) (st : Stages V μ ε ς)

/-- The filter's batch made current at a place, and an evaluation with it installed. -/
def onFilter {α : Type} (place : Option (Place V)) (x : EvalM V μ ε α) : SiteM V μ ε ς α := fun t =>
  let batch := t.filter.map fun b =>
    match place with
    | none => b
    | some p => w.setRow st.batchRows b p.index p.rows p.last (w.headroom t.meter)
  let r := x (t.meter, batch)
  (r.1, { t with meter := r.2.1, filter := r.2.2 })

/-- The projection's batch made current at a place, and an evaluation with it installed. -/
def onProject {α : Type} (place : Option (Place V)) (x : EvalM V μ ε α) : SiteM V μ ε ς α := fun t =>
  let batch := t.project.map fun b =>
    match place with
    | none => b
    | some p => w.setRow st.batchRows b p.index p.rows p.last (w.headroom t.meter)
  let r := x (t.meter, batch)
  (r.1, { t with meter := r.2.1, project := r.2.2 })

/-- `*passed += 1`, and whether the offset skips the row. -/
def countPassed (plan : Plan V) : SiteM V μ ε ς Bool :=
  progressM fun p => (.ok (decide (p.passed + 1 ≤ plan.offset)), { p with passed := p.passed + 1 })

/-- A row produced, and whether the limit lets another follow. -/
def produce (plan : Plan V) (projected : List V) : SiteM V μ ε ς Bool := do
  meterM (st.admitRow projected)
  progressM fun p =>
    (.ok (plan.limit.all fun limit => decide (((p.out ++ [projected]).length : Int) < limit)),
      { p with out := p.out ++ [projected] })

/-- Whether the filter, if there is one, keeps the row. -/
def keepRow (plan : Plan V) (place : Option (Place V)) (row : Row V) : SiteM V μ ε ς Bool :=
  match plan.filter with
  | none => pure true
  | some filter => onFilter w st place (w.evalFilter row filter)

/-- `process_streaming_row`. -/
def processStreamingRow (plan : Plan V) (place : Option (Place V)) (row : Row V) :
    SiteM V μ ε ς Bool := do
  meterM fun m => (w.guard m, m)
  meterM fun m => (.ok (), w.charge st.storageRowRead m)
  let row ← Run.ofExcept (st.resolveColumns row)
  if !(← keepRow w st plan place row) then pure true
  else if plan.distinct then do
    let projected ← onProject w st place (w.evalAll row plan.projections)
    meterM (st.chargeHashKeys projected)
    let inserted ← (progressM fun p =>
      ((st.insert p.seen projected).1, { p with seen := (st.insert p.seen projected).2 })).observe
    if !(← meterM (st.costFirst inserted)) then pure true
    else if ← countPassed plan then pure true
    else do
      meterM fun m => (.ok (), w.charge st.rowProduced m)
      produce st plan projected
  else if ← countPassed plan then pure true
  else do
    meterM fun m => (.ok (), w.charge st.rowProduced m)
    let projected ← onProject w st place (w.evalAll row plan.projections)
    produce st plan projected

/-- A row of an emitter: the charge, the projection and the row handed out. -/
def emitRow (plan : Plan V) (place : Option (Place V)) (row : Row V) : SiteM V μ ε ς Bool := do
  meterM fun m => (w.guard m, m)
  meterM fun m => (.ok (), w.charge st.rowProduced m)
  let projected ← onProject w st place (w.evalAll row plan.projections)
  progressM fun p => (.ok true, { p with out := p.out ++ [projected] })

end

/-- What is left of a source: rows, and errors in their place. -/
abbrev Source (V ε : Type) := List (Except ε (Row V))

/-- A site that pulls row by row; whether the source was read to its end. -/
def scanRows (process : Option (Place V) → Row V → SiteM V μ ε ς Bool) :
    Source V ε → SiteM V μ ε ς Bool
  | [] => pure true
  | .error e :: _ => Run.ofExcept (.error e)
  | .ok row :: rest => do
    if ← process none row then scanRows process rest else pure false

/-- `ReadAhead`, its batches apart. -/
structure ReadAhead (V ε : Type) where
  rows : List (Row V)
  pos : Nat
  deferred : Option ε
  ended : Bool

/-- What filling a window of at most so many rows reads. -/
structure Fill (V ε : Type) where
  rows : List (Row V)
  deferred : Option ε
  ended : Bool
  rest : Source V ε

/-- The filling of a window. -/
def fill : Nat → Source V ε → Fill V ε
  | 0, source => ⟨[], none, false, source⟩
  | _ + 1, [] => ⟨[], none, true, []⟩
  | _ + 1, .error e :: rest => ⟨[], some e, false, rest⟩
  | n + 1, .ok row :: rest => { fill n rest with rows := row :: (fill n rest).rows }

/-- Whether `next` fills the window anew. -/
def ReadAhead.refills (ra : ReadAhead V ε) : Bool :=
  decide (ra.pos = ra.rows.length) && ra.deferred.isNone && !ra.ended

/-- `next`. -/
def ReadAhead.next (ra : ReadAhead V ε) (cap : Nat) (source : Source V ε) :
    Except ε (Option Nat) × ReadAhead V ε × Source V ε :=
  if ra.pos = ra.rows.length then
    match ra.deferred with
    | some e => (.error e, { ra with deferred := none }, source)
    | none =>
      if ra.ended then (.ok none, ra, source)
      else
        let filled := fill (max cap 1) source
        if filled.rows.isEmpty then
          match filled.deferred with
          | some e => (.error e, ⟨[], 0, none, filled.ended⟩, filled.rest)
          | none => (.ok none, ⟨[], 0, none, filled.ended⟩, filled.rest)
        else (.ok (some 0), ⟨filled.rows, 1, filled.deferred, filled.ended⟩, filled.rest)
  else (.ok (some ra.pos), { ra with pos := ra.pos + 1 }, source)

/-- `restart`. -/
def ReadAhead.restart (ra : ReadAhead V ε) : ReadAhead V ε :=
  { ra with pos := ra.rows.length, deferred := none, ended := false }

/-- The batches of a window that is filled anew. -/
def Site.refilled (t : Site V μ ε ς) (ra : ReadAhead V ε) : Site V μ ε ς :=
  if ra.refills then
    { t with filter := t.filter.map HostBatch.reset, project := t.project.map HostBatch.reset }
  else t

/-- A site that reads ahead; the window where the source was read to its end, `none` where the site
    stopped. The fuel is one more than the rows left, so that it is not used up. -/
def scanAhead (cap : Site V μ ε ς → Nat) (process : Option (Place V) → Row V → SiteM V μ ε ς Bool) :
    Nat → ReadAhead V ε → Source V ε → SiteM V μ ε ς (Option (ReadAhead V ε))
  | 0, ra, _, t => (.ok (some ra), t)
  | fuel + 1, ra, source, t =>
    match ra.next (cap t) source with
    | (.error e, _, _) => (.error e, t.refilled ra)
    | (.ok none, ra', _) => (.ok (some ra'), t.refilled ra)
    | (.ok (some i), ra', source') =>
      match ra'.rows[i]? with
      -- An index handed out is one of the window.
      | none => (.ok (some ra'), t.refilled ra)
      | some row =>
        match process (some ⟨ra'.rows, i, ra'.rows.length⟩) row (t.refilled ra) with
        | (.error e, t') => (.error e, t')
        | (.ok false, t') => (.ok none, t')
        | (.ok true, t') => scanAhead cap process fuel ra' source' t'

/-- An interval of a scan: the charge of its block, or the error of reading it, and its rows. -/
structure Interval (V ε : Type) where
  block : Except ε Int
  source : Source V ε

section
variable (w : World V μ ε) (canPull : Bool) (process : Option (Place V) → Row V → SiteM V μ ε ς Bool)

/-- The charge of an interval's block, and whether the interval is pulled from. -/
def openInterval (interval : Interval V ε) : SiteM V μ ε ς Bool := do
  let units ← Run.ofExcept interval.block
  meterM fun m => (.ok (), w.charge units m)
  pure canPull

/-- The intervals in turn, each pulled row by row. -/
def scanIntervals : List (Interval V ε) → SiteM V μ ε ς Bool
  | [] => pure true
  | interval :: rest => do
    if !(← openInterval w canPull interval) then pure false
    else if ← scanRows process interval.source then scanIntervals rest
    else pure false

/-- The intervals in turn, each read ahead of. -/
def scanIntervalsAhead (cap : Site V μ ε ς → Nat) :
    ReadAhead V ε → List (Interval V ε) → SiteM V μ ε ς Bool
  | _, [] => pure true
  | ra, interval :: rest => do
    if !(← openInterval w canPull interval) then pure false
    else
      match ← scanAhead cap process (interval.source.length + 1) ra.restart interval.source with
      | none => pure false
      | some ra' => scanIntervalsAhead cap ra' rest

end

/-- The rows that a site holds, at some of their places. -/
def emitHeld (process : Option (Place V) → Row V → SiteM V μ ε ς Bool) (rows : List (Row V))
    (place : Nat → Option (Place V)) : List Nat → SiteM V μ ε ς Bool
  | [] => pure true
  | i :: is =>
    match rows[i]? with
    | none => pure true
    | some row => do
      if ← process (place i) row then emitHeld process rows place is else pure false

/-- The batches of a site that evaluates the filter and the projection of a plan. -/
def World.filterBatch (w : World V μ ε) (plan : Plan V) : Option (HostBatch V ε) :=
  plan.filter.bind fun filter => w.forExprs [filter]

def World.projectBatch (w : World V μ ε) (plan : Plan V) : Option (HostBatch V ε) :=
  w.forExprs plan.projections

section
variable (w : World V μ ε) (st : Stages V μ ε ς) (plan : Plan V)

/-- `exec_streaming_scan` over table intervals; `cap` is `read_ahead_cap`. -/
def streamingScan (cap : Site V μ ε ς → Nat) (intervals : List (Interval V ε)) (meter : μ)
    (progress : Progress V ς) : Except ε Bool × Site V μ ε ς :=
  let canPull := decide (plan.limit ≠ some 0)
  let process := processStreamingRow w st plan
  if (w.filterBatch plan).isNone && (w.projectBatch plan).isNone then
    scanIntervals w canPull process intervals ⟨meter, none, none, progress⟩
  else
    scanIntervalsAhead w canPull process cap ⟨[], 0, none, false⟩ intervals
      ⟨meter, w.filterBatch plan, w.projectBatch plan, progress⟩

/-- The emitters of sorted and spooled rows. -/
def pulledEmitter (cap : Site V μ ε ς → Nat) (source : Source V ε) (meter : μ) (progress : Progress V ς) :
    Except ε Bool × Site V μ ε ς :=
  match w.projectBatch plan with
  | none => scanRows (emitRow w st plan) source ⟨meter, none, none, progress⟩
  | some batch =>
    (do
      let window ← scanAhead cap (emitRow w st plan) (source.length + 1) ⟨[], 0, none, false⟩ source
      pure window.isSome : SiteM V μ ε ς Bool) ⟨meter, none, some batch, progress⟩

/-- The emitter of buffered rows, of those before `last` at the places asked for. -/
def heldEmitter (rows : List (Row V)) (last : Nat) (places : List Nat) (meter : μ)
    (progress : Progress V ς) : Except ε Bool × Site V μ ε ς :=
  emitHeld (emitRow w st plan) rows (fun i => some ⟨rows, i, last⟩) places
    ⟨meter, none, w.projectBatch plan, progress⟩

end

end Jed.Host
