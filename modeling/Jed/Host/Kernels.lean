import Jed.Host.Expr
import Mathlib.Data.List.Basic

/-!
# Batches

The calls a site prefetches and the prefetching of them (`host_batch.rs:26-286`).
-/

namespace Jed.Host

open Runs

variable {V μ ε : Type}

/-- `trivially_evaluable`. -/
def triviallyEvaluable : RExpr V → Bool
  | .column _ => true
  | .outerColumn _ _ => true
  | .param _ => true
  | .const _ => true
  | _ => false

/-- The nodes that evaluate every operand. -/
def evaluatesAll (kind : OpKind) : Bool :=
  [OpKind.cast, .neg, .isNull, .not, .arith, .compare].contains kind

/-- A slot before any prefetch. -/
def Slot.fresh (node id : Nat) (args : List (RExpr V)) : Slot V ε := ⟨node, id, args, 0, 0, [], none⟩

mutual

/-- `collect`. -/
def World.collect (w : World V μ ε) : RExpr V → List (Slot V ε)
  | .hostFunc node id _ args =>
    if (w.functions id).batchable && !args.isEmpty && args.all triviallyEvaluable then
      [Slot.fresh node id args]
    else []
  | .op kind _ args => if evaluatesAll kind then w.collects args else []
  | _ => []

def World.collects (w : World V μ ε) : List (RExpr V) → List (Slot V ε)
  | [] => []
  | e :: es => w.collect e ++ w.collects es

end

/-- `for_exprs`. -/
def World.forExprs (w : World V μ ε) (exprs : List (RExpr V)) : Option (HostBatch V ε) :=
  if (w.collects exprs).isEmpty then none else some ⟨0, w.collects exprs⟩

/-- `unfetched`. -/
def World.unfetched (w : World V μ ε) (row : Row V) (a : RExpr V) : Bool :=
  match a with
  | .column i =>
    match row i with
    | .unfetched _ => true
    | .fetched _ => false
  | .outerColumn level index =>
    match w.outer level index with
    | .unfetched _ => true
    | .fetched _ => false
  | _ => false

/-- The value of an argument that a prefetch sends to the kernel. -/
def World.sent (w : World V μ ε) (row : Row V) (a : RExpr V) : Option V :=
  if w.unfetched row a then none
  else
    match w.leafValue row a with
    | some (.ok v) => if w.values.isNull v then none else some v
    | _ => none

/-- The arguments of a call over a row, where all of them are sent. -/
def World.gather (w : World V μ ε) (row : Row V) (args : List (RExpr V)) : Option (List V) :=
  args.mapM (w.sent row)

/-- The chunk rows that are sent, with their arguments. -/
def World.members (w : World V μ ε) (args : List (RExpr V)) (rows : List (Row V)) :
    List (Nat × List V) :=
  rows.zipIdx.filterMap fun x => (w.gather x.1 args).map fun vals => (x.2, vals)

/-- The columns of the rows sent. -/
def columnsOf (arity : Nat) (rows : List (List V)) : List (List V) :=
  (List.range arity).map fun j => rows.filterMap (·[j]?)

/-- The rows of a chunk. -/
def chunkSize (batchRows : Nat) (hf : HostFunction V ε) (left : Nat) (headroom : Option Int) : Nat :=
  let n := min left batchRows
  match headroom with
  | some h => if hf.cost > 0 then min n ((max h 0 / hf.cost).toNat + 1) else n
  | none => n

/-- The results put at their chunk rows. -/
def placed (n : Nat) (members : List (Nat × List V)) (results : List V) : List (Option V) :=
  (members.zip results).foldl (fun values x => values.set x.1.1 (some x.2)) (List.replicate n none)

/-- `prefetch`. -/
def World.prefetch (w : World V μ ε) (batchRows : Nat) (s : Slot V ε) (start : Nat)
    (rows : List (Row V)) (last : Nat) (headroom : Option Int) : Slot V ε :=
  let hf := w.functions s.id
  let n := chunkSize batchRows hf (last - start) headroom
  let members := w.members s.args ((rows.drop start).take n)
  if members.isEmpty then
    { s with base := start, valid := n, values := List.replicate n none, error := none }
  else
    let (results, error) :=
      hf.callBatchPrefix w.values (columnsOf s.args.length (members.map Prod.snd)) members.length
    let values := placed n members results
    match error with
    | none => { s with base := start, valid := n, values := values, error := none }
    | some e =>
      -- The chunk settles through the failing row; a later row starts a new chunk.
      let failed := (members[results.length]?.map Prod.fst).getD 0
      { s with base := start, valid := failed + 1, values := values, error := some (failed, e) }

/-- `set_row`. -/
def World.setRow (w : World V μ ε) (batchRows : Nat) (b : HostBatch V ε) (i : Nat)
    (rows : List (Row V)) (last : Nat) (headroom : Option Int) : HostBatch V ε :=
  { row := i
    slots := b.slots.map fun s =>
      if i < s.base ∨ i ≥ s.base + s.valid then w.prefetch batchRows s i rows last headroom else s }

/-- `reset`. -/
def HostBatch.reset (b : HostBatch V ε) : HostBatch V ε :=
  { b with slots := b.slots.map fun s => { s with valid := 0, values := [], error := none } }

end Jed.Host

/-!
## Calls of many rows and of one

Over a kernel that is the row-wise map of a function, a batch answers each of its rows as a call of that
row alone.
-/

namespace Jed.Host

open Runs

variable {V μ ε : Type}

/-- A batch kernel that is the row-wise map of `f`. -/
def RowWise (kernel : List (List V) → List V × Except ε Unit) (f : List V → Except ε V) : Prop :=
  ∀ cols n, 0 < n → (∀ c ∈ cols, c.length = n) → (cols = [] → n = 1) →
    kernel cols = eachRow f (rowsOf cols n)

/-- The contract of host functions (`HostBatchKernel`). -/
def World.KernelsRowWise (w : World V μ ε) : Prop :=
  ∀ id kernel, (w.functions id).kernel = .batch kernel → ∃ f, RowWise kernel f

theorem filterMap_range_getElem (l : List V) (n : ℕ) :
    (List.range n).filterMap (l[·]?) = l.take n := by
  induction n with
  | zero => rfl
  | succ n ih =>
    rw [List.range_succ, List.filterMap_append, ih, List.take_add_one, List.filterMap_cons,
      List.filterMap_nil]
    cases l[n]? <;> rfl

variable {rows : List (List V)} {j : ℕ}

theorem column_getElem (h : ∀ r ∈ rows, j < r.length) (i : ℕ) :
    (rows.filterMap (·[j]?))[i]? = rows[i]?.bind (·[j]?) := by
  induction rows generalizing i with
  | nil => rfl
  | cons r rows ih =>
    have hr := List.getElem?_eq_getElem (h r List.mem_cons_self)
    rw [List.filterMap_cons, hr]
    cases i with
    | zero => exact hr.symm
    | succ i => exact ih (fun x hx => h x (List.mem_cons_of_mem _ hx)) i

theorem length_column (h : ∀ r ∈ rows, j < r.length) :
    (rows.filterMap (·[j]?)).length = rows.length := by
  induction rows with
  | nil => rfl
  | cons r rows ih =>
    rw [List.filterMap_cons, List.getElem?_eq_getElem (h r List.mem_cons_self), List.length_cons,
      ih fun x hx => h x (List.mem_cons_of_mem _ hx), List.length_cons]

/-- Rows of one length are the rows of their columns. -/
theorem rowsOf_columnsOf {arity : ℕ} (h : ∀ r ∈ rows, r.length = arity) :
    rowsOf (columnsOf arity rows) rows.length = rows := by
  refine List.ext_getElem? fun i => ?_
  unfold rowsOf columnsOf
  rw [List.getElem?_map]
  by_cases hi : i < rows.length
  · have hrow := h _ (List.getElem_mem hi)
    have hcells : ((List.range arity).map fun j => rows.filterMap (·[j]?)).filterMap (·[i]?) =
        (List.range arity).filterMap (rows[i][·]?) := by
      rw [List.filterMap_map]
      refine List.filterMap_congr fun j hj => ?_
      rw [Function.comp, column_getElem fun r hr => by rw [h r hr]; exact List.mem_range.mp hj,
        List.getElem?_eq_getElem hi]
      rfl
    rw [List.getElem?_range hi, Option.map_some, hcells, filterMap_range_getElem, ← hrow,
      List.take_length, List.getElem?_eq_getElem hi]
  · rw [List.getElem?_eq_none (by simpa using hi), List.getElem?_eq_none (Nat.not_lt.mp hi)]
    rfl

theorem length_of_mem_columnsOf {arity : ℕ} (h : ∀ r ∈ rows, r.length = arity)
    {col : List V} (hcol : col ∈ columnsOf arity rows) : col.length = rows.length := by
  obtain ⟨j, hj, rfl⟩ := List.mem_map.mp hcol
  exact length_column fun r hr => by rw [h r hr]; exact List.mem_range.mp hj

/-- The arguments of a row as the kernel sees them. -/
def HostFunction.coerced (hf : HostFunction V ε) (vs : Values V) (vals : List V) : List V :=
  vals.mapIdx fun i v => hf.coerceArg vs i v

theorem coerceArg_coerceArg (hf : HostFunction V ε) (vs : Values V) (i : ℕ) (v : V) :
    hf.coerceArg vs i (hf.coerceArg vs i v) = hf.coerceArg vs i v := by
  unfold HostFunction.coerceArg
  cases hf.argTypes[i]? with
  | none => rfl
  | some type =>
    cases type with
    | decimal => exact vs.asDecimal_asDecimal v
    | float64 => exact vs.asFloat64_asFloat64 v
    | other => rfl

theorem coerced_getElem (hf : HostFunction V ε) (vs : Values V) (vals : List V) (j : ℕ) :
    (hf.coerced vs vals)[j]? = vals[j]?.map (hf.coerceArg vs j) := List.getElem?_mapIdx

theorem length_coerced (hf : HostFunction V ε) (vs : Values V) (vals : List V) :
    (hf.coerced vs vals).length = vals.length := List.length_mapIdx

theorem coerced_coerced (hf : HostFunction V ε) (vs : Values V) (vals : List V) :
    hf.coerced vs (hf.coerced vs vals) = hf.coerced vs vals := by
  refine List.ext_getElem? fun j => ?_
  rw [coerced_getElem, coerced_getElem, Option.map_map]
  exact Option.map_congr fun v _ => coerceArg_coerceArg hf vs j v

/-- Coercing the columns coerces the rows. -/
theorem coerced_columns (hf : HostFunction V ε) (vs : Values V) (arity : ℕ) (rows : List (List V)) :
    ((columnsOf arity rows).mapIdx fun i col => col.map (hf.coerceArg vs i)) =
      columnsOf arity (rows.map (hf.coerced vs)) := by
  refine List.ext_getElem? fun j => ?_
  unfold columnsOf
  rw [List.getElem?_mapIdx, List.getElem?_map, List.getElem?_map, Option.map_map]
  refine Option.map_congr fun k hk => ?_
  have hkj : k = j := by
    obtain ⟨hj, hget⟩ := List.getElem?_eq_some_iff.mp hk
    rw [List.getElem_range] at hget
    exact hget.symm
  rw [hkj, Function.comp, List.map_filterMap, List.filterMap_map]
  refine List.filterMap_congr fun r _ => ?_
  rw [Function.comp, coerced_getElem]

variable {f : List V → Except ε V}

theorem eachRow_answers {i : ℕ} {v : V}
    (h : (eachRow f rows).1[i]? = some v) : ∃ row, rows[i]? = some row ∧ f row = .ok v := by
  induction rows generalizing i with
  | nil => cases h
  | cons row rows ih =>
    rw [eachRow] at h
    cases hrow : f row with
    | error e =>
      rw [hrow] at h
      cases h
    | ok u =>
      rw [hrow] at h
      cases i with
      | zero =>
        cases h
        exact ⟨row, rfl, hrow⟩
      | succ i => exact ih h

theorem eachRow_fails {f : List V → Except ε V} {rows : List (List V)} {e : ε}
    (h : (eachRow f rows).2 = .error e) :
    ∃ row, rows[(eachRow f rows).1.length]? = some row ∧ f row = .error e := by
  induction rows with
  | nil => cases h
  | cons row rows ih =>
    rw [eachRow] at h ⊢
    cases hrow : f row with
    | error e' =>
      rw [hrow] at h
      cases h
      exact ⟨row, rfl, hrow⟩
    | ok u =>
      rw [hrow] at h
      exact ih h

theorem eachRow_all {f : List V → Except ε V} {rows : List (List V)}
    (h : (eachRow f rows).2 = .ok ()) : (eachRow f rows).1.length = rows.length := by
  induction rows with
  | nil => rfl
  | cons row rows ih =>
    rw [eachRow] at h ⊢
    cases hrow : f row with
    | error e' =>
      rw [hrow] at h
      cases h
    | ok u =>
      rw [hrow] at h
      exact congrArg (· + 1) (ih h)

/-- The error of a run of rows. -/
def errorOf (r : Except ε Unit) : Option ε :=
  match r with
  | .error e => some e
  | .ok () => none

attribute [grind =] errorOf

/-- A batch call of a row-wise kernel. -/
theorem callBatchPrefix_eq {hf : HostFunction V ε} {kernel : List (List V) → List V × Except ε Unit}
    (hkernel : hf.kernel = .batch kernel) (hf' : RowWise kernel f)
    (vs : Values V) (arity : ℕ) (rows : List (List V)) (hpos : rows ≠ [])
    (harity : ∀ r ∈ rows, r.length = arity) (hzero : arity = 0 → rows.length = 1) :
    hf.callBatchPrefix vs (columnsOf arity rows) rows.length =
      ((eachRow f (rows.map (hf.coerced vs))).1, errorOf (eachRow f (rows.map (hf.coerced vs))).2) := by
  have hlength : ∀ r ∈ rows.map (hf.coerced vs), r.length = arity := by
    intro r hr
    obtain ⟨r', hr', rfl⟩ := List.mem_map.mp hr
    rw [length_coerced, harity r' hr']
  have hrows : kernel (columnsOf arity (rows.map (hf.coerced vs))) =
      eachRow f (rows.map (hf.coerced vs)) := by
    have hn := hf' (columnsOf arity (rows.map (hf.coerced vs))) (rows.map (hf.coerced vs)).length
    rw [rowsOf_columnsOf hlength, List.length_map] at hn
    refine hn (List.length_pos_iff.mpr hpos) (fun c hc => ?_) fun hnil => hzero ?_
    · rw [length_of_mem_columnsOf hlength hc, List.length_map]
    · have hempty := congrArg List.length hnil
      rwa [columnsOf, List.length_map, List.length_range] at hempty
  unfold HostFunction.callBatchPrefix
  simp only [hkernel, coerced_columns, hrows]
  have hfails := @eachRow_fails V ε f (rows.map (hf.coerced vs))
  have hall := @eachRow_all V ε f (rows.map (hf.coerced vs))
  cases hres : (eachRow f (rows.map (hf.coerced vs))).2 with
  | error e =>
    obtain ⟨row, hrow, -⟩ := hfails hres
    obtain ⟨hlt, -⟩ := List.getElem?_eq_some_iff.mp hrow
    rw [List.length_map] at hlt
    rw [if_neg (by omega), errorOf]
    simp only [if_neg (Nat.ne_of_lt hlt)]
  | ok u =>
    have hlen := hall hres
    rw [List.length_map] at hlen
    rw [if_neg (by omega), errorOf]
    simp only [if_neg (Nat.not_lt.mpr (Nat.le_of_eq hlen.symm))]

theorem columnsOf_singleton (vals : List V) :
    columnsOf vals.length [vals] = vals.map fun v => [v] := by
  refine List.ext_getElem? fun j => ?_
  unfold columnsOf
  rw [List.getElem?_map, List.getElem?_map]
  by_cases hj : j < vals.length
  · rw [List.getElem?_range hj, List.getElem?_eq_getElem hj, Option.map_some, Option.map_some,
      List.filterMap_cons, List.getElem?_eq_getElem hj]
    rfl
  · rw [List.getElem?_eq_none (by simpa using hj), List.getElem?_eq_none (Nat.not_lt.mp hj)]
    rfl

/-- A call of one row of a row-wise kernel. -/
theorem callOne_eq {hf : HostFunction V ε} {kernel : List (List V) → List V × Except ε Unit}
    (hkernel : hf.kernel = .batch kernel) (hf' : RowWise kernel f)
    (vs : Values V) (vals : List V) : hf.callOne vs vals = f (hf.coerced vs vals) := by
  have hbatch := callBatchPrefix_eq hkernel hf' vs (hf.coerced vs vals).length
    [hf.coerced vs vals] (List.cons_ne_nil _ _)
    (fun r hr => by rw [List.mem_singleton.mp hr]) fun _ => rfl
  rw [columnsOf_singleton, List.map_cons, List.map_nil, coerced_coerced] at hbatch
  unfold HostFunction.callOne
  simp only [hkernel]
  rw [List.length_singleton] at hbatch
  have hmap : vals.mapIdx (fun i v => hf.coerceArg vs i v) = hf.coerced vs vals := rfl
  rw [hmap, hbatch, eachRow]
  cases f (hf.coerced vs vals) with
  | error e => rfl
  | ok v => rfl

end Jed.Host
