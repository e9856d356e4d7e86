import Jed.Host.Answers

/-!
# Replay

Evaluation with a batch installed, over a row whose calls it may have prefetched, gives the same value or
error as evaluation without one and leaves the same meter.
-/

namespace Jed.Host

open Runs

variable {V μ ε : Type}

/-- A call node: its address, its function and its arguments. -/
structure Call (V : Type) where
  node : ℕ
  id : ℕ
  args : List (RExpr V)

mutual

/-- The call nodes of an expression. -/
def calls : RExpr V → List (Call V)
  | .hostFunc node id _ args => ⟨node, id, args⟩ :: callsAll args
  | .op _ _ args => callsAll args
  | _ => []

def callsAll : List (RExpr V) → List (Call V)
  | [] => []
  | e :: es => calls e ++ callsAll es

end

/-- Distinct nodes have distinct addresses. -/
def Addressed (nodes : List (Call V)) : Prop := ∀ c ∈ nodes, ∀ c' ∈ nodes, c.node = c'.node → c = c'

/-- The call of a slot. -/
def Slot.call (s : Slot V ε) : Call V := ⟨s.node, s.id, s.args⟩

/-- A slot of one of the nodes, which a prefetch may answer and which it answers right. -/
structure Kept (w : World V μ ε) (nodes : List (Call V)) (rows : List (Row V)) (s : Slot V ε) :
    Prop where
  known : s.call ∈ nodes
  args : s.args ≠ []
  batchable : (w.functions s.id).batchable = true
  ok : SlotOk w rows s

/-- Every slot of the batch. -/
def BatchOk (w : World V μ ε) (nodes : List (Call V)) (rows : List (Row V)) (b : HostBatch V ε) :
    Prop := ∀ s ∈ b.slots, Kept w nodes rows s

variable {s : Slot V ε}

theorem slotOk_take {w : World V μ ε} {rows : List (Row V)} (h : SlotOk w rows s)
    (row : ℕ) : SlotOk w rows (s.take row).2 ∧ (s.take row).2.call = s.call ∧
      ∀ r, (s.take row).1 = some r → Answered w rows s row r := by
  unfold Slot.take
  split
  · exact ⟨h, rfl, fun r hr => by cases hr⟩
  · rename_i hbase
    have hrow : s.base + (row - s.base) = row := by omega
    dsimp only
    split
    · exact ⟨h, rfl, fun r hr => by cases hr⟩
    · rename_i v hv
      refine ⟨⟨fun k u hu => ?_, h.error⟩, rfl, fun r hr => ?_⟩
      · rw [List.getElem?_set] at hu
        split at hu
        · split at hu <;> cases hu
        · exact h.values k u hu
      · cases hr
        have hanswer := h.values _ v hv
        rwa [hrow] at hanswer
    · cases herror : s.error with
      | none => exact ⟨h, rfl, fun r hr => by cases hr⟩
      | some failure =>
        obtain ⟨failed, e⟩ := failure
        dsimp only
        split
        · rename_i hfailed
          refine ⟨⟨h.values, fun k e' he => by cases he⟩, rfl, fun r hr => ?_⟩
          cases hr
          have hanswer := h.error _ e herror
          rwa [hfailed, hrow] at hanswer
        · exact ⟨h, rfl, fun r hr => by cases hr⟩

theorem kept_take {w : World V μ ε} {nodes : List (Call V)} {rows : List (Row V)}
    (h : Kept w nodes rows s) (row : ℕ) : Kept w nodes rows (s.take row).2 := by
  obtain ⟨hok, hcall, -⟩ := slotOk_take h.ok row
  obtain ⟨hnode, hid, hargs⟩ := Call.mk.inj hcall
  exact ⟨by rw [hcall]; exact h.known, by rw [hargs]; exact h.args, by rw [hid]; exact h.batchable, hok⟩

theorem kept_takeFrom {w : World V μ ε} {nodes : List (Call V)} {rows : List (Row V)}
    {slots : List (Slot V ε)} (h : ∀ s ∈ slots, Kept w nodes rows s) (node row : ℕ) :
    (∀ s ∈ (takeFrom node row slots).2, Kept w nodes rows s) ∧
      ∀ r, (takeFrom node row slots).1 = some r →
        ∃ s ∈ slots, s.node = node ∧ Answered w rows s row r := by
  induction slots with
  | nil => exact ⟨fun s hs => absurd hs List.not_mem_nil, fun r hr => by cases hr⟩
  | cons s slots ih =>
    obtain ⟨hs, hslots⟩ := List.forall_mem_cons.mp h
    obtain ⟨hkept, htaken⟩ := ih hslots
    rw [takeFrom]
    split
    · rename_i hnode
      exact ⟨List.forall_mem_cons.mpr ⟨kept_take hs row, hslots⟩, fun r hr =>
        ⟨s, List.mem_cons_self, hnode, (slotOk_take hs.ok row).2.2 r hr⟩⟩
    · refine ⟨List.forall_mem_cons.mpr ⟨hs, hkept⟩, fun r hr => ?_⟩
      obtain ⟨s', hs', hnode, hanswer⟩ := htaken r hr
      exact ⟨s', List.mem_cons_of_mem _ hs', hnode, hanswer⟩

/-- A row whose fetched cells are those of the row in the window. -/
def Resolves (window row : Row V) : Prop := ∀ i v, window i = .fetched v → row i = .fetched v

/-- A state with a batch that is right for the row at `i`, and the one without it. -/
def Beside (w : World V μ ε) (nodes : List (Call V)) (rows : List (Row V)) (i : ℕ)
    (s t : EvalState V μ ε) : Prop :=
  s.1 = t.1 ∧ t.2 = none ∧ ∀ b ∈ s.2, b.row = i ∧ BatchOk w nodes rows b

section
variable {w : World V μ ε} {nodes : List (Call V)} {rows : List (Row V)} {i : ℕ}

theorem onMeter_lockstep (work : μ → Except ε Unit × μ) :
    Lockstep (Beside w nodes rows i) (onMeter work) (onMeter work) := by
  intro s t hst
  refine ⟨?_, ?_, hst.2.1, hst.2.2⟩
  · change (work s.1).1 = (work t.1).1
    rw [hst.1]
  · change (work s.1).2 = (work t.1).2
    rw [hst.1]

variable {m : μ}

theorem guardM_eq {r : Except ε Unit} (h : w.guard m = r) (ob : Option (HostBatch V ε)) :
    (w.guardM : EvalM V μ ε Unit) (m, ob) = (r, m, ob) := by
  change (w.guard m, m, ob) = _
  rw [h]

variable {window row : Row V}

/-- The value of an argument that is sent, where no ceiling is reached. -/
theorem eval_sent (hrow : Resolves window row) {a : RExpr V} {v : V}
    (h : w.sent window a = some v) (hguard : w.guard m = .ok ()) (ob : Option (HostBatch V ε)) :
    w.eval row a (m, ob) = (.ok v, m, ob) ∧ w.values.isNull v = false := by
  have hok := guardM_eq hguard ob
  unfold World.sent at h
  split at h
  · cases h
  · rename_i hfetched
    split at h
    · rename_i u hleaf
      split at h
      · cases h
      · rename_i hnull
        cases h
        refine ⟨?_, by simpa using hnull⟩
        cases a with
        | column j =>
          simp only [World.leafValue, World.unfetched] at hleaf hfetched
          cases hcell : window j with
          | unfetched pointer => simp [hcell] at hfetched
          | fetched u =>
            rw [hcell] at hleaf
            cases hleaf
            rw [World.eval, bind_ok hok, hrow j _ hcell]
            rfl
        | outerColumn level index =>
          rw [World.eval, bind_ok hok, Option.some.inj hleaf]
          rfl
        | param j =>
          cases hleaf
          rw [World.eval, bind_ok hok]
          rfl
        | const u =>
          cases hleaf
          rw [World.eval, bind_ok hok]
          rfl
        | hostFunc node id result args => cases hleaf
        | op kind tag args => cases hleaf
    · cases h

variable {args : List (RExpr V)}

/-- The arguments of a call that is sent. -/
theorem strictArgs_sent (hrow : Resolves window row)
    {vals : List V} (h : w.gather window args = some vals) (hguard : w.guard m = .ok ())
    (ob : Option (HostBatch V ε)) :
    strictArgs w.values (w.evals row args) (m, ob) = (.ok (some vals), m, ob) := by
  induction args generalizing vals with
  | nil =>
    cases h
    rfl
  | cons a args ih =>
    unfold World.gather at h
    rw [List.mapM_cons] at h
    cases ha : w.sent window a with
    | none =>
      rw [ha] at h
      cases h
    | some v =>
      rw [ha] at h
      cases hrest : args.mapM (w.sent window) with
      | none =>
        simp only [hrest] at h
        cases h
      | some rest =>
        simp only [hrest] at h
        cases h
        obtain ⟨heval, hnull⟩ := eval_sent hrow ha hguard ob
        rw [World.evals, strictArgs, bind_ok heval, hnull]
        exact bind_ok (ih hrest)

theorem batchOk_take {b : HostBatch V ε} (h : b.row = i ∧ BatchOk w nodes rows b) (node : ℕ) :
    ((b.take node).2.row = i ∧ BatchOk w nodes rows (b.take node).2) ∧
      ∀ r, (b.take node).1 = some r → ∃ s ∈ b.slots, s.node = node ∧ Answered w rows s i r := by
  obtain ⟨hkept, htaken⟩ := kept_takeFrom h.2 node b.row
  refine ⟨⟨h.1, hkept⟩, fun r hr => ?_⟩
  obtain ⟨s, hs, hnode, hanswer⟩ := htaken r hr
  exact ⟨s, hs, hnode, by rwa [h.1] at hanswer⟩

theorem strictArgs_lockstep {xs : List (EvalM V μ ε V)}
    (h : ∀ x ∈ xs, Lockstep (Beside w nodes rows i) x x) :
    Lockstep (Beside w nodes rows i) (strictArgs w.values xs) (strictArgs w.values xs) := by
  induction xs with
  | nil => exact Lockstep.pure _
  | cons x xs ih =>
    obtain ⟨hx, hxs⟩ := List.forall_mem_cons.mp h
    exact hx.bind fun v => Lockstep.ite (Lockstep.pure _) ((ih hxs).bind fun _ => Lockstep.pure _)

theorem ownOutcome_lockstep (id : ℕ) {xs : List (EvalM V μ ε V)}
    (h : ∀ x ∈ xs, Lockstep (Beside w nodes rows i) x x) :
    Lockstep (Beside w nodes rows i) (w.ownOutcome id xs) (w.ownOutcome id xs) := by
  refine (strictArgs_lockstep h).bind fun o => ?_
  cases o with
  | none => exact Lockstep.pure _
  | some vals => exact (Lockstep.ofExcept _).bind fun _ => Lockstep.pure _

/-- The outcome of a call, prefetched or not, where no ceiling is reached. -/
theorem outcome_lockstep (haddr : Addressed nodes)
    (hwindow : rows[i]? = some window) (hrow : Resolves window row) {node id : ℕ}
    (hnode : Call.mk node id args ∈ nodes)
    (hargs : ∀ x ∈ w.evals row args, Lockstep (Beside w nodes rows i) x x)
    (hguard : w.guard m = .ok ()) (ob : Option (HostBatch V ε))
    (hst : Beside w nodes rows i (m, ob) (m, none)) :
    (w.outcome node id (w.evals row args) (m, ob)).1 =
        (w.outcome node id (w.evals row args) (m, none)).1 ∧
      Beside w nodes rows i (w.outcome node id (w.evals row args) (m, ob)).2
        (w.outcome node id (w.evals row args) (m, none)).2 := by
  -- Without a batch the call evaluates its arguments.
  have hown : w.outcome node id (w.evals row args) (m, none) =
      w.ownOutcome id (w.evals row args) (m, none) := rfl
  have hlock := ownOutcome_lockstep id hargs
  rw [hown]
  cases ob with
  | none => exact hlock _ _ hst
  | some b =>
    obtain ⟨hnext, htaken⟩ := batchOk_take (hst.2.2 b rfl) node
    have hside : Beside w nodes rows i (m, some (b.take node).2) (m, none) :=
      ⟨rfl, rfl, fun b' hb' => by cases hb'; exact hnext⟩
    have hfirst : (takeM node : EvalM V μ ε _) (m, some b) =
        (.ok (b.take node).1, m, some (b.take node).2) := rfl
    unfold World.outcome
    rw [bind_ok hfirst]
    cases htake : (b.take node).1 with
    | none => exact hlock _ _ hside
    | some r =>
      obtain ⟨slot, hslot, hslotNode, window', vals, hwindow', hvals, hcall⟩ := htaken r htake
      -- The slot is this node's: its address is.
      have hsame := haddr _ ((hst.2.2 b rfl).2 slot hslot).known _ hnode hslotNode
      obtain ⟨-, hid, hslotArgs⟩ := Call.mk.inj hsame
      rw [hwindow] at hwindow'
      cases hwindow'
      rw [hslotArgs] at hvals
      rw [hid] at hcall
      unfold World.ownOutcome
      rw [bind_ok (strictArgs_sent hrow hvals hguard (none : Option (HostBatch V ε)))]
      simp only [hcall]
      exact ((Lockstep.ofExcept r).bind fun _ => Lockstep.pure _) _ _ hside

theorem strategy_lockstep (vs : Values V) {operands : List (EvalM V μ ε V)}
    (h : ∀ x ∈ operands, Lockstep (Beside w nodes rows i) x x) (strategy : Strategy V μ ε) :
    Lockstep (Beside w nodes rows i) (strategy.run vs operands) (strategy.run vs operands) := by
  induction strategy with
  | done r => exact Lockstep.ofExcept r
  | meter work next ih => exact (onMeter_lockstep work).observe.bind fun r => ih r
  | operand j next ih =>
    have hoperand : Lockstep (Beside w nodes rows i) (operands[j]?.getD (pure vs.null))
        (operands[j]?.getD (pure vs.null)) := by
      cases hj : operands[j]? with
      | none => exact Lockstep.pure _
      | some x => exact h x (List.mem_of_getElem? hj)
    exact hoperand.observe.bind fun r => ih r

/-- A call node. -/
theorem hostFunc_lockstep (haddr : Addressed nodes)
    (hwindow : rows[i]? = some window) (hrow : Resolves window row) {node id result : ℕ}
    (hnode : Call.mk node id args ∈ nodes)
    (hargs : ∀ x ∈ w.evals row args, Lockstep (Beside w nodes rows i) x x) :
    Lockstep (Beside w nodes rows i) (w.eval row (.hostFunc node id result args))
      (w.eval row (.hostFunc node id result args)) := by
  rw [World.eval]
  refine (onMeter_lockstep _).bind fun _ => (onMeter_lockstep _).bind fun _ => ?_
  rintro ⟨m, ob⟩ ⟨m', ob'⟩ ⟨hm, hnone, hbatch⟩
  cases hm
  cases hnone
  cases hguard : w.guard m with
  | error e =>
    rw [bind_error (guardM_eq hguard ob), bind_error (guardM_eq hguard none)]
    exact ⟨rfl, rfl, rfl, hbatch⟩
  | ok u =>
    rw [bind_ok (guardM_eq hguard ob), bind_ok (guardM_eq hguard none)]
    have hcall := outcome_lockstep haddr hwindow hrow hnode hargs hguard ob ⟨rfl, rfl, hbatch⟩
    refine bind_lockstep hcall fun o => ?_
    cases o with
    | none => exact Lockstep.pure _
    | some out => exact (Lockstep.ofExcept _).bind fun _ => Lockstep.pure _

mutual

theorem eval_lockstep (haddr : Addressed nodes) {window row : Row V} (hwindow : rows[i]? = some window)
    (hrow : Resolves window row) : ∀ e : RExpr V, (∀ c ∈ calls e, c ∈ nodes) →
      Lockstep (Beside w nodes rows i) (w.eval row e) (w.eval row e)
  | .column j, _ => by
    rw [World.eval]
    exact (onMeter_lockstep _).bind fun _ => Lockstep.ofExcept _
  | .outerColumn level index, _ => by
    rw [World.eval]
    exact (onMeter_lockstep _).bind fun _ => Lockstep.ofExcept _
  | .param j, _ => by
    rw [World.eval]
    exact (onMeter_lockstep _).bind fun _ => Lockstep.pure _
  | .const v, _ => by
    rw [World.eval]
    exact (onMeter_lockstep _).bind fun _ => Lockstep.pure _
  | .hostFunc node id result args, h => by
    rw [calls] at h
    obtain ⟨hnode, hargs⟩ := List.forall_mem_cons.mp h
    exact hostFunc_lockstep haddr hwindow hrow hnode (evals_lockstep haddr hwindow hrow args hargs)
  | .op kind tag args, h => by
    rw [calls] at h
    rw [World.eval]
    exact (onMeter_lockstep _).bind fun _ =>
      strategy_lockstep _ (evals_lockstep haddr hwindow hrow args h) _

theorem evals_lockstep (haddr : Addressed nodes) {window row : Row V} (hwindow : rows[i]? = some window)
    (hrow : Resolves window row) : ∀ es : List (RExpr V), (∀ c ∈ callsAll es, c ∈ nodes) →
      ∀ x ∈ w.evals row es, Lockstep (Beside w nodes rows i) x x
  | [], _ => by
    intro x hx
    rw [World.evals] at hx
    exact absurd hx List.not_mem_nil
  | e :: es, h => by
    rw [callsAll] at h
    obtain ⟨he, hes⟩ := List.forall_mem_append.mp h
    rw [World.evals]
    exact List.forall_mem_cons.mpr ⟨eval_lockstep haddr hwindow hrow e he,
      evals_lockstep haddr hwindow hrow es hes⟩

end

theorem evalAll_lockstep (haddr : Addressed nodes)
    (hwindow : rows[i]? = some window) (hrow : Resolves window row) (es : List (RExpr V))
    (h : ∀ c ∈ callsAll es, c ∈ nodes) :
    Lockstep (Beside w nodes rows i) (w.evalAll row es) (w.evalAll row es) := by
  induction es with
  | nil => exact Lockstep.pure _
  | cons e es ih =>
    rw [callsAll] at h
    obtain ⟨he, hes⟩ := List.forall_mem_append.mp h
    rw [World.evalAll]
    exact (eval_lockstep haddr hwindow hrow e he).bind fun _ => (ih hes).bind fun _ => Lockstep.pure _

theorem evalFilter_lockstep (haddr : Addressed nodes)
    (hwindow : rows[i]? = some window) (hrow : Resolves window row) (e : RExpr V)
    (h : ∀ c ∈ calls e, c ∈ nodes) :
    Lockstep (Beside w nodes rows i) (w.evalFilter row e) (w.evalFilter row e) := by
  fun_induction World.evalFilter w row e with
  | case1 tag l r ihl ihr =>
    rw [calls, callsAll, callsAll, callsAll, List.append_nil] at h
    obtain ⟨hl, hr⟩ := List.forall_mem_append.mp h
    exact (onMeter_lockstep _).bind fun _ => (onMeter_lockstep _).bind fun _ =>
      (ihl hl).bind fun _ => Lockstep.ite (ihr hr) (Lockstep.pure _)
  | case2 e he => exact (eval_lockstep haddr hwindow hrow e h).bind fun _ => Lockstep.pure _

end

mutual

/-- The slots collected are of the nodes of an expression, with arguments and batch kernels. -/
theorem mem_collect {w : World V μ ε} : ∀ (e : RExpr V) {s : Slot V ε}, s ∈ w.collect e →
    s.call ∈ calls e ∧ s.args ≠ [] ∧ (w.functions s.id).batchable = true ∧ s.values = [] ∧ s.error = none
  | .column j, s, h => by simp [World.collect] at h
  | .outerColumn level index, s, h => by simp [World.collect] at h
  | .param j, s, h => by simp [World.collect] at h
  | .const v, s, h => by simp [World.collect] at h
  | .hostFunc node id result args, s, h => by
    rw [World.collect] at h
    split at h
    · rename_i helig
      cases List.mem_singleton.mp h
      rw [Bool.and_eq_true, Bool.and_eq_true] at helig
      have hne : args ≠ [] := by simpa using helig.1.2
      rw [calls]
      exact ⟨List.mem_cons_self, hne, helig.1.1, rfl, rfl⟩
    · cases h
  | .op kind tag args, s, h => by
    rw [World.collect] at h
    rw [calls]
    split at h
    · exact mem_collects args h
    · cases h

theorem mem_collects {w : World V μ ε} : ∀ (es : List (RExpr V)) {s : Slot V ε}, s ∈ w.collects es →
    s.call ∈ callsAll es ∧ s.args ≠ [] ∧ (w.functions s.id).batchable = true ∧ s.values = [] ∧
      s.error = none
  | [], s, h => by
    rw [World.collects] at h
    cases h
  | e :: es, s, h => by
    rw [World.collects] at h
    rw [callsAll]
    rcases List.mem_append.mp h with he | hes
    · obtain ⟨hcall, hrest⟩ := mem_collect e he
      exact ⟨List.mem_append_left _ hcall, hrest⟩
    · obtain ⟨hcall, hrest⟩ := mem_collects es hes
      exact ⟨List.mem_append_right _ hcall, hrest⟩

end

section
variable {w : World V μ ε} {nodes : List (Call V)} {rows rows' : List (Row V)} {b : HostBatch V ε}

theorem batchOk_forExprs {exprs : List (RExpr V)} (h : ∀ c ∈ callsAll exprs, c ∈ nodes)
    (hb : w.forExprs exprs = some b) : BatchOk w nodes rows b := by
  unfold World.forExprs at hb
  split at hb
  · cases hb
  · cases hb
    intro s hs
    obtain ⟨hcall, hargs, hbatchable, hvalues, herror⟩ := mem_collects exprs hs
    refine ⟨h _ hcall, hargs, hbatchable, slotOk_of_empty (fun k v hget => ?_) herror⟩
    rw [hvalues] at hget
    cases hget

theorem call_prefetch (w : World V μ ε) (rows : List (Row V)) (batchRows : ℕ) (s : Slot V ε)
    (start last : ℕ) (headroom : Option ℤ) :
    (w.prefetch batchRows s start rows last headroom).call = s.call := by
  unfold World.prefetch
  dsimp only
  split
  · rfl
  · split <;> rfl

/-- Making a row current leaves a batch that is right. -/
theorem batchOk_setRow (hw : w.KernelsRowWise) (h : BatchOk w nodes rows b) (batchRows i last : ℕ)
    (headroom : Option ℤ) :
    (w.setRow batchRows b i rows last headroom).row = i ∧
      BatchOk w nodes rows (w.setRow batchRows b i rows last headroom) := by
  refine ⟨rfl, fun s' hs' => ?_⟩
  obtain ⟨s, hs, rfl⟩ := List.mem_map.mp hs'
  have hkept := h s hs
  split
  · have hcall := call_prefetch w rows batchRows s i last headroom
    obtain ⟨-, hid, hargs⟩ := Call.mk.inj hcall
    refine ⟨by rw [hcall]; exact hkept.known, by rw [hargs]; exact hkept.args,
      by rw [hid]; exact hkept.batchable, ?_⟩
    have hbatchable := hkept.batchable
    unfold HostFunction.batchable at hbatchable
    cases hkernel : (w.functions s.id).kernel with
    | row kernel =>
      rw [hkernel] at hbatchable
      cases hbatchable
    | batch kernel =>
      obtain ⟨f, hf⟩ := hw s.id kernel hkernel
      exact slotOk_prefetch hkept.args hkernel hf batchRows i rows last headroom
  · exact hkept

theorem batchOk_reset (h : BatchOk w nodes rows b) : BatchOk w nodes rows' b.reset := by
  intro s' hs'
  obtain ⟨s, hs, rfl⟩ := List.mem_map.mp hs'
  have hkept := h s hs
  exact ⟨hkept.known, hkept.args, hkept.batchable, slotOk_of_empty (fun k v hget => by cases hget) rfl⟩

end

end Jed.Host
