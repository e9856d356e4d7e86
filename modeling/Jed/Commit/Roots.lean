import Jed.Lib.Runs

/-!
# Published roots and the attachments

The roots a handle publishes (`shared.rs`): main's snapshot and the map of attached snapshots, which
`attach`, `detach`, commits, compaction and an owner's maintenance commit replace, each in a critical
section of its own. Attach, detach and compaction hold the in-process writer gate; a writer holds it
from its pin to its publish, and under the page service the owner's gate with it. A maintenance commit
(`shared.rs:2065-2116`) holds the owner's gate alone, from its pin to its publish.
-/

namespace Jed.Commit

variable {σ : Type}

/-- `Roots`, with the version of the committed snapshot. -/
structure Roots (σ : Type) where
  txid : Nat
  committed : σ
  attached : String → Option σ

/-- The page-service role of a handle. -/
inductive Role where
  | none
  | owner
  | client
  deriving DecidableEq, Repr

/-- A session that holds the writer gate: `base_version`, the role generation the gate was taken
    under, `attached_committed`, and which of its roots the session has changed. -/
structure Writer (σ : Type) where
  base : Nat
  roleGen : Nat
  attached : String → Option σ
  changed : String → Option σ

/-- A maintenance commit between its pin and its publish. -/
structure Maintenance (σ : Type) where
  txid : Nat
  roleGen : Nat
  attached : String → Option σ

/-- `Shared`: the roots, the reader pins, the role and its generation, the two gates and who holds
    them; a maintenance commit of an earlier role may still be under way. The registry has, for every
    attachment, the root of its last published commit. -/
structure Shared (σ : Type) where
  roots : Roots σ
  registry : String → Option σ
  live : Nat
  role : Role
  generation : Nat
  ownerGate : Bool
  writer : Option (Writer σ)
  maintenances : List (Maintenance σ)

/-- One critical section. -/
inductive Action (σ : Type) where
  | attach (name : String) (root : σ)
  | detach (name : String)
  | pin
  | unpin
  | beginWrite (service : String → Option σ)
  | commitAttachment (name : String) (root : σ)
  | publish (snap : σ)
  | publishAttached
  | releaseWriter
  | compact (name : String) (root : σ)
  | adopt (txid : Nat) (snap : σ)
  | pinMaintenance
  | publishMaintenance (i : Nat) (snap : σ)
  | abandonMaintenance (i : Nat)
  | installRole (role : Role) (engine : Option (Nat × σ))

namespace Shared

/-- A handle just opened. -/
def new (role : Role) (txid : Nat) (committed : σ) : Shared σ :=
  ⟨⟨txid, committed, fun _ => none⟩, fun _ => none, 0, role, 0, false, none, []⟩

/-- The changed roots over the others. -/
def overlay (changed attached : String → Option σ) : String → Option σ :=
  fun name => changed name <|> attached name

/-- `Database::attach` (`shared.rs:4081-4160`), from the registry on. -/
def attach (s : Shared σ) (name : String) (root : σ) : Option (Shared σ) :=
  if s.writer.isSome ∨ name = "main" ∨ name = "temp" ∨ (s.registry name).isSome then none
  else some { s with
    registry := Function.update s.registry name (some root)
    roots := { s.roots with attached := Function.update s.roots.attached name (some root) } }

/-- `Database::detach` (`shared.rs:4172-4220`). -/
def detach (s : Shared σ) (name : String) : Option (Shared σ) :=
  if s.writer.isSome ∨ (s.registry name).isNone ∨ 0 < s.live then none
  else some { s with
    registry := Function.update s.registry name none
    roots := { s.roots with attached := Function.update s.roots.attached name none } }

/-- `acquire_writer` and `refresh_committed`: the gates, then the roots, with the snapshots of the
    service attachments the writer holds over them (`writer_view`). -/
def beginWrite (s : Shared σ) (service : String → Option σ) : Option (Shared σ) :=
  if s.writer.isSome ∨ (s.role = .owner ∧ s.ownerGate) then none
  else
    let changed := fun name => if (s.roots.attached name).isSome then service name else none
    some { s with
      ownerGate := s.ownerGate || s.role == .owner
      writer := some ⟨s.roots.txid, s.generation, overlay changed s.roots.attached, changed⟩ }

/-- What `commit_tx` does with a dirty attachment. -/
def commitAttachment (s : Shared σ) (name : String) (root : σ) : Option (Shared σ) :=
  match s.writer with
  | some w =>
    if (w.attached name).isSome then
      some { s with writer := some { w with
        attached := Function.update w.attached name (some root)
        changed := Function.update w.changed name (some root) } }
    else none
  | none => none

/-- `Shared::publish` (`shared.rs:2629-2684`): whether it published, and the roots after. -/
def publishRoots (s : Shared σ) (txid : Nat) (committed : σ) (attached : String → Option σ)
    (roleGen : Nat) : Bool × Roots σ :=
  if s.generation ≠ roleGen then (false, s.roots)
  else if s.role = .client ∧ txid ≤ s.roots.txid then (true, s.roots)
  else (true, ⟨txid, committed, attached⟩)

/-- `Session::publish` where main changed (`shared.rs:4945-4985`), from the persist on. -/
def publish (s : Shared σ) (snap : σ) : Option (Shared σ) :=
  match s.writer with
  | some w =>
    match s.publishRoots (w.base + 1) snap w.attached w.roleGen with
    | (false, _) => some { s with
        writer := some { w with
          base := s.roots.txid, attached := s.roots.attached, changed := fun _ => none } }
    | (true, roots) => some { s with
        roots := roots
        registry := overlay w.changed s.registry
        writer := some { w with base := w.base + 1, changed := fun _ => none } }
  | none => none

/-- `Session::publish` where only attachments changed (`shared.rs:4938-4944`). -/
def publishAttached (s : Shared σ) : Option (Shared σ) :=
  match s.writer with
  | some w => some { s with
      roots := { s.roots with attached := w.attached }
      registry := overlay w.changed s.registry
      writer := some { w with changed := fun _ => none } }
  | none => none

/-- `release_writer`: the owner's gate too, where the role it was taken under is still the handle's. -/
def releaseWriter (s : Shared σ) : Option (Shared σ) :=
  match s.writer with
  | some w => some { s with
      ownerGate := s.ownerGate && !(w.roleGen == s.generation && s.role == .owner)
      writer := none }
  | none => none

/-- `compact` and `compact_locked` (`shared.rs:2193-2252`). -/
def compact (s : Shared σ) (name : String) (root : σ) : Option (Shared σ) :=
  if s.writer.isSome ∨ 0 < s.live then none
  else if name = "main" then
    if s.role = .owner ∧ s.ownerGate ∨ s.role = .client then none
    else some { s with roots := { s.roots with txid := s.roots.txid + 1, committed := root } }
  else if (s.registry name).isNone then none
  else some { s with
    registry := Function.update s.registry name (some root)
    roots := { s.roots with attached := Function.update s.roots.attached name (some root) } }

/-- `adopt_foreign` (`shared.rs:2026-2056`), and a client's `client_adopt`. -/
def adopt (s : Shared σ) (txid : Nat) (snap : σ) : Option (Shared σ) :=
  match s.role with
  | .none => none
  | .owner =>
    if s.roots.txid < txid then
      some { s with roots := { s.roots with txid := txid, committed := snap } }
    else some s
  | .client => some { s with roots := { s.roots with txid := txid, committed := snap } }

/-- `maintenance_commit` up to its pin: no reader may hold reclamation back. -/
def pinMaintenance (s : Shared σ) : Option (Shared σ) :=
  if s.role = .owner ∧ ¬s.ownerGate ∧ s.live = 0 then
    some { s with
      ownerGate := true
      maintenances := s.maintenances ++ [⟨s.roots.txid + 1, s.generation, s.roots.attached⟩] }
  else none

/-- The end of a maintenance commit: its gate is free again. -/
def endMaintenance (s : Shared σ) (i : Nat) (m : Maintenance σ) : Shared σ :=
  { s with
    ownerGate := s.ownerGate && !(m.roleGen == s.generation)
    maintenances := s.maintenances.eraseIdx i }

/-- `maintenance_commit` from its commit on. -/
def publishMaintenance (s : Shared σ) (i : Nat) (snap : σ) : Option (Shared σ) :=
  match s.maintenances[i]? with
  | some m =>
    some { s.endMaintenance i m with roots := (s.publishRoots m.txid snap m.attached m.roleGen).2 }
  | none => none

/-- A maintenance commit that is not due, or fails. -/
def abandonMaintenance (s : Shared σ) (i : Nat) : Option (Shared σ) :=
  (s.maintenances[i]?).map (s.endMaintenance i)

/-- `install_role` (`shared_handoff.rs:298-350`): the new role's gate, its registry of readers and
    its committed snapshot. -/
def installRole (s : Shared σ) (role : Role) (engine : Option (Nat × σ)) : Shared σ :=
  { s with
    role := role
    generation := s.generation + 1
    live := 0
    ownerGate := false
    roots := match engine with
      | some (txid, snap) => { s.roots with txid := txid, committed := snap }
      | none => s.roots }

/-- The section, where it can run. -/
def step (s : Shared σ) : Action σ → Option (Shared σ)
  | .attach name root => s.attach name root
  | .detach name => s.detach name
  | .pin => some { s with live := s.live + 1 }
  | .unpin => some { s with live := s.live - 1 }
  | .beginWrite service => s.beginWrite service
  | .commitAttachment name root => s.commitAttachment name root
  | .publish snap => s.publish snap
  | .publishAttached => s.publishAttached
  | .releaseWriter => s.releaseWriter
  | .compact name root => s.compact name root
  | .adopt txid snap => s.adopt txid snap
  | .pinMaintenance => s.pinMaintenance
  | .publishMaintenance i snap => s.publishMaintenance i snap
  | .abandonMaintenance i => s.abandonMaintenance i
  | .installRole role engine => some (s.installRole role engine)

/-- The published map holds the registered attachments, each with the root of its last published
    commit. -/
def Agree (s : Shared σ) : Prop := s.roots.attached = s.registry

/-- No publish is of a map that is not the handle's any more: a maintenance commit publishes the map it
    pinned only while that is still the published one, and a client's commit that changed an attachment
    publishes before a reader has adopted its version. -/
def Current (s : Shared σ) : Action σ → Prop
  | .publishMaintenance i _ => ∀ m, s.maintenances[i]? = some m → m.roleGen = s.generation →
      m.attached = s.roots.attached
  | .publish _ => ∀ w, s.writer = some w → w.roleGen = s.generation → s.role = .client →
      w.base + 1 ≤ s.roots.txid → overlay w.changed s.roots.attached = s.roots.attached
  | _ => True

/-- A writer's map is the published one with what it changed. -/
def WriterOk (s : Shared σ) : Prop :=
  ∀ w, s.writer = some w → w.attached = overlay w.changed s.roots.attached

structure Ok (s : Shared σ) : Prop where
  agree : s.Agree
  writer : s.WriterOk

theorem new_ok (role : Role) (txid : ℕ) (committed : σ) : (new role txid committed).Ok :=
  ⟨rfl, fun _ h => by cases h⟩

theorem overlay_none (attached : String → Option σ) : overlay (fun _ => none) attached = attached := by
  funext name
  rfl

theorem overlay_update (changed attached : String → Option σ) (name : String) (root : σ) :
    Function.update (overlay changed attached) name (some root) =
      overlay (Function.update changed name (some root)) attached := by
  funext other
  unfold overlay
  by_cases h : other = name
  · subst h
    simp
  · simp [Function.update_of_ne h]

variable {s s' : Shared σ}

/-- A section that leaves the published map, the registry and the writer alone. -/
theorem Ok.frame (h : s.Ok) (hattached : s'.roots.attached = s.roots.attached)
    (hregistry : s'.registry = s.registry) (hwriter : s'.writer = s.writer) : s'.Ok where
  agree := by
    unfold Agree
    rw [hattached, hregistry]
    exact h.agree
  writer := by
    intro w hw
    rw [hattached]
    exact h.writer w (hwriter.symm.trans hw)

theorem Ok.of_idle (hagree : s'.roots.attached = s'.registry) (hwriter : s'.writer = none) : s'.Ok :=
  ⟨hagree, fun w hw => by rw [hwriter] at hw; cases hw⟩

/-- What the roots are after a publish. -/
theorem publishRoots_cases (s : Shared σ) (txid : ℕ) (committed : σ) (attached : String → Option σ)
    (roleGen : ℕ) :
    (s.publishRoots txid committed attached roleGen = (false, s.roots) ∧ roleGen ≠ s.generation) ∨
    (s.publishRoots txid committed attached roleGen = (true, s.roots) ∧ roleGen = s.generation ∧
      s.role = .client ∧ txid ≤ s.roots.txid) ∨
    (s.publishRoots txid committed attached roleGen = (true, ⟨txid, committed, attached⟩) ∧
      roleGen = s.generation ∧ ¬(s.role = .client ∧ txid ≤ s.roots.txid)) := by
  unfold publishRoots
  by_cases hgen : s.generation = roleGen
  · rw [if_neg (not_not.mpr hgen)]
    by_cases hold : s.role = .client ∧ txid ≤ s.roots.txid
    · exact .inr (.inl ⟨if_pos hold, hgen.symm, hold⟩)
    · exact .inr (.inr ⟨if_neg hold, hgen.symm, hold⟩)
  · exact .inl ⟨if_pos hgen, fun h => hgen h.symm⟩

variable {name : String} {root : σ}

theorem attach_ok (hs : s.Ok) (h : s.attach name root = some s') : s'.Ok := by
  unfold attach at h
  split at h
  · cases h
  · rename_i hidle
    cases h
    apply Ok.of_idle
    · show Function.update _ _ _ = Function.update _ _ _
      rw [hs.agree]
    · exact Option.not_isSome_iff_eq_none.mp fun hw => hidle (.inl hw)

theorem detach_ok (hs : s.Ok) (h : s.detach name = some s') :
    s'.Ok := by
  unfold detach at h
  split at h
  · cases h
  · rename_i hidle
    cases h
    apply Ok.of_idle
    · show Function.update _ _ _ = Function.update _ _ _
      rw [hs.agree]
    · exact Option.not_isSome_iff_eq_none.mp fun hw => hidle (.inl hw)

theorem compact_ok (hs : s.Ok) (h : s.compact name root = some s') : s'.Ok := by
  unfold compact at h
  split at h
  · cases h
  rename_i hidle
  have hwriter : s.writer = none := Option.not_isSome_iff_eq_none.mp fun hw => hidle (.inl hw)
  split at h
  · split at h
    · cases h
    · cases h
      exact hs.frame rfl rfl rfl
  split at h
  · cases h
  · cases h
    apply Ok.of_idle
    · show Function.update _ _ _ = Function.update _ _ _
      rw [hs.agree]
    · exact hwriter

theorem beginWrite_ok {service : String → Option σ} (hs : s.Ok) (h : s.beginWrite service = some s') : s'.Ok := by
  unfold beginWrite at h
  split at h
  · cases h
  · cases h
    refine ⟨hs.agree, fun w hw => ?_⟩
    cases hw
    rfl

theorem commitAttachment_ok (hs : s.Ok) (h : s.commitAttachment name root = some s') : s'.Ok := by
  unfold commitAttachment at h
  split at h
  · rename_i w hw
    split at h
    · cases h
      refine ⟨hs.agree, fun w' hw' => ?_⟩
      cases hw'
      show Function.update w.attached name (some root) = _
      rw [hs.writer w hw, overlay_update]
    · cases h
  · cases h

theorem Ok.publishes (hs : s.Ok) {w : Writer σ} (hw : s.writer = some w) :
    w.attached = overlay w.changed s.registry := by
  rw [hs.writer w hw, hs.agree]

variable {snap : σ}

theorem publish_ok (hs : s.Ok) (hcurrent : s.Current (.publish snap)) (h : s.publish snap = some s') : s'.Ok := by
  unfold publish at h
  split at h
  · rename_i w hw
    obtain ⟨hpub, -⟩ | ⟨hpub, hgen, hrole, hold⟩ | ⟨hpub, -⟩ :=
      s.publishRoots_cases (w.base + 1) snap w.attached w.roleGen
    · rw [hpub] at h
      cases h
      refine ⟨hs.agree, fun w' hw' => ?_⟩
      cases hw'
      exact (overlay_none _).symm
    · -- The roots are a reader's already: only a commit that changed no attachment is not lost.
      rw [hpub] at h
      cases h
      have hsame := hcurrent w hw hgen hrole hold
      constructor
      · show s.roots.attached = overlay w.changed s.registry
        rw [← hs.agree, hsame]
      · intro w' hw'
        cases hw'
        show w.attached = overlay (fun _ => none) s.roots.attached
        rw [overlay_none, hs.writer w hw, hsame]
    · rw [hpub] at h
      cases h
      refine ⟨hs.publishes hw, fun w' hw' => ?_⟩
      cases hw'
      exact (overlay_none _).symm
  · cases h

theorem publishAttached_ok (hs : s.Ok) (h : s.publishAttached = some s') :
    s'.Ok := by
  unfold publishAttached at h
  split at h
  · rename_i w hw
    cases h
    refine ⟨hs.publishes hw, fun w' hw' => ?_⟩
    cases hw'
    exact (overlay_none _).symm
  · cases h

theorem releaseWriter_ok (hs : s.Ok) (h : s.releaseWriter = some s') : s'.Ok := by
  unfold releaseWriter at h
  split at h
  · cases h
    exact Ok.of_idle hs.agree rfl
  · cases h

theorem adopt_ok {txid : ℕ} (hs : s.Ok) (h : s.adopt txid snap = some s') : s'.Ok := by
  unfold adopt at h
  split at h
  · cases h
  · split at h
    · cases h
      exact hs.frame rfl rfl rfl
    · cases h
      exact hs
  · cases h
    exact hs.frame rfl rfl rfl

theorem publishMaintenance_ok {i : ℕ} (hs : s.Ok)
    (hcurrent : s.Current (.publishMaintenance i snap)) (h : s.publishMaintenance i snap = some s') :
    s'.Ok := by
  unfold publishMaintenance at h
  split at h
  · rename_i m hm
    cases h
    obtain ⟨hpub, -⟩ | ⟨hpub, -⟩ | ⟨hpub, hgen, -⟩ :=
      s.publishRoots_cases m.txid snap m.attached m.roleGen
    · rw [hpub]
      exact hs.frame rfl rfl rfl
    · rw [hpub]
      exact hs.frame rfl rfl rfl
    · rw [hpub]
      exact hs.frame (hcurrent m hm hgen) rfl rfl
  · cases h

theorem step_ok {a : Action σ} (hs : s.Ok) (hcurrent : s.Current a) (h : s.step a = some s') : s'.Ok := by
  cases a with
  | attach name root => exact attach_ok hs h
  | detach name => exact detach_ok hs h
  | pin =>
    cases h
    exact hs.frame rfl rfl rfl
  | unpin =>
    cases h
    exact hs.frame rfl rfl rfl
  | beginWrite service => exact beginWrite_ok hs h
  | commitAttachment name root => exact commitAttachment_ok hs h
  | publish snap => exact publish_ok hs hcurrent h
  | publishAttached => exact publishAttached_ok hs h
  | releaseWriter => exact releaseWriter_ok hs h
  | compact name root => exact compact_ok hs h
  | adopt txid snap => exact adopt_ok hs h
  | pinMaintenance =>
    change s.pinMaintenance = some s' at h
    unfold pinMaintenance at h
    split at h
    · cases h
      exact hs.frame rfl rfl rfl
    · cases h
  | publishMaintenance i snap => exact publishMaintenance_ok hs hcurrent h
  | abandonMaintenance i =>
    obtain ⟨m, -, rfl⟩ := Option.map_eq_some_iff.mp h
    exact hs.frame rfl rfl rfl
  | installRole role engine =>
    cases h
    have hattached : (s.installRole role engine).roots.attached = s.roots.attached := by
      cases engine <;> rfl
    exact hs.frame hattached rfl rfl

/-- In every run whose publishes are all current, the published map agrees with the registry in every
    state: it holds the registered attachments, each with the root of its last published commit. -/
theorem agree_of_current (role : Role) (txid : ℕ) (committed : σ) {acts : List (Action σ)}
    {s : Shared σ} (hcurrent : Runs.Meets step Current (new role txid committed) acts)
    (h : Runs.run step (new role txid committed) acts = some s) : s.Agree :=
  (Runs.run_invariant_meets (fun _ _ _ => step_ok) (new_ok role txid committed) hcurrent h).agree

/-- A maintenance commit was begun by the owner, which the handle still is unless it has a new role. -/
def OwnerMaintains (s : Shared σ) : Prop :=
  ∀ m ∈ s.maintenances, m.roleGen ≤ s.generation ∧ (m.roleGen = s.generation → s.role = .owner)

theorem OwnerMaintains.frame (h : s.OwnerMaintains) (hmaintenances : ∀ m ∈ s'.maintenances, m ∈ s.maintenances)
    (hrole : s'.role = s.role) (hgeneration : s'.generation = s.generation) : s'.OwnerMaintains := by
  intro m hm
  rw [hrole, hgeneration]
  exact h m (hmaintenances m hm)

theorem OwnerMaintains.step {a : Action σ} (h : s.OwnerMaintains) (hstep : s.step a = some s') :
    s'.OwnerMaintains := by
  cases a with
  | pinMaintenance =>
    simp only [Shared.step, pinMaintenance] at hstep
    split at hstep
    case isTrue howner =>
      cases hstep
      intro m hm
      cases List.mem_append.mp hm with
      | inl hold => exact h m hold
      | inr hnew =>
        cases List.mem_singleton.mp hnew
        exact ⟨Nat.le_refl _, fun _ => howner.1⟩
    case isFalse => cases hstep
  | installRole role engine =>
    cases hstep
    intro m hm
    have hle := (h m hm).1
    exact ⟨Nat.le_succ_of_le hle, fun heq => absurd heq (by simp only [installRole]; omega)⟩
  | publishMaintenance i snap =>
    simp only [Shared.step, publishMaintenance] at hstep
    split at hstep
    · cases hstep
      exact h.frame (fun m hm => List.mem_of_mem_eraseIdx hm) rfl rfl
    · cases hstep
  | abandonMaintenance i =>
    simp only [Shared.step, abandonMaintenance, Option.map_eq_some_iff] at hstep
    obtain ⟨m, -, rfl⟩ := hstep
    exact h.frame (fun m hm => List.mem_of_mem_eraseIdx hm) rfl rfl
  | pin | unpin =>
    cases hstep
    exact h.frame (fun _ hm => hm) rfl rfl
  | attach | detach | beginWrite | commitAttachment | publish | publishAttached | releaseWriter | compact | adopt =>
    simp only [Shared.step, attach, detach, beginWrite, commitAttachment, publish, publishAttached, releaseWriter,
      compact, adopt] at hstep
    split at hstep <;> (try split at hstep) <;> (try split at hstep) <;> cases hstep <;>
      exact h.frame (fun _ hm => hm) rfl rfl

/-- A publish that is not current loses an update: the map no longer agrees with the registry. -/
theorem not_agree_of_not_current {a : Action σ} (hs : s.Ok) (howner : s.OwnerMaintains) (h : s.step a = some s')
    (hcurrent : ¬s.Current a) : ¬s'.Agree := by
  cases a with
  | publishMaintenance i snap =>
    obtain ⟨m, hm⟩ := not_forall.mp hcurrent
    rw [Classical.not_imp, Classical.not_imp] at hm
    obtain ⟨hm, hgen, hne⟩ := hm
    change s.publishMaintenance i snap = some s' at h
    unfold publishMaintenance at h
    rw [hm] at h
    cases h
    obtain ⟨-, hother⟩ | ⟨-, -, hclient, -⟩ | ⟨hpub, -⟩ :=
      s.publishRoots_cases m.txid snap m.attached m.roleGen
    · exact absurd hgen hother
    · rw [(howner m (List.mem_of_getElem? hm)).2 hgen] at hclient
      cases hclient
    · intro hagree
      unfold Agree at hagree
      rw [hpub] at hagree
      exact hne (hagree.trans hs.agree.symm)
  | publish snap =>
    obtain ⟨w, hw⟩ := not_forall.mp hcurrent
    rw [Classical.not_imp, Classical.not_imp, Classical.not_imp, Classical.not_imp] at hw
    obtain ⟨hw, hgen, hrole, hold, hne⟩ := hw
    change s.publish snap = some s' at h
    unfold publish at h
    rw [hw] at h
    dsimp only at h
    obtain ⟨-, hother⟩ | ⟨hpub, -⟩ | ⟨-, -, hnew⟩ :=
      s.publishRoots_cases (w.base + 1) snap w.attached w.roleGen
    · exact absurd hgen hother
    · rw [hpub] at h
      cases h
      intro hagree
      change s.roots.attached = overlay w.changed s.registry at hagree
      rw [← hs.agree] at hagree
      exact hne hagree.symm
    · exact absurd ⟨hrole, hold⟩ hnew
  | _ => exact absurd trivial hcurrent

/-- An attachment of an owner whose maintenance commit is between its pin and its publish. -/
def attachDuringMaintenance : List (Action ℕ) :=
  [.pinMaintenance, .attach "a" 7, .publishMaintenance 0 1]

/-- A client's commit to an attachment, published after a reader has adopted its version. -/
def adoptBeforePublish : List (Action ℕ) :=
  [.attach "a" 7, .beginWrite fun _ => none, .commitAttachment "a" 8, .adopt 1 1, .publish 1]

/-- Either run loses the attachment's update. -/
theorem updates_lost :
    (∃ s, Runs.run step (new .owner 0 0) attachDuringMaintenance = some s ∧ ¬s.Agree) ∧
      ∃ s, Runs.run step (new .client 0 0) adoptBeforePublish = some s ∧ ¬s.Agree := by
  constructor
  · refine ⟨_, rfl, fun h => ?_⟩
    have := congrFun h "a"
    cases this
  · refine ⟨_, rfl, fun h => ?_⟩
    have := congrFun h "a"
    cases this

/-- A commit to an attachment, then a maintenance commit. -/
def commitThenMaintenance : List (Action ℕ) :=
  [.attach "a" 7, .beginWrite fun _ => none, .commitAttachment "a" 8, .publish 1, .releaseWriter,
    .pinMaintenance, .publishMaintenance 0 1]

theorem agree_of_current_commitThenMaintenance :
    ∃ s, Runs.run step (new .owner 0 0) commitThenMaintenance = some s ∧ s.Agree ∧
      s.roots.attached "a" = some 8 := by
  have hcurrent : Runs.Meets step Current (new .owner 0 0) commitThenMaintenance := by
    apply Runs.Meets.cons trivial rfl
    apply Runs.Meets.cons trivial rfl
    apply Runs.Meets.cons trivial rfl
    apply Runs.Meets.cons (fun _ _ _ hrole => by cases hrole) rfl
    apply Runs.Meets.cons trivial rfl
    apply Runs.Meets.cons trivial rfl
    apply Runs.Meets.cons (fun m hm _ => by cases hm; rfl) rfl
    exact Runs.Meets.nil
  exact ⟨_, rfl, agree_of_current .owner 0 0 hcurrent rfl, rfl⟩

theorem meets_current_iff_of_ok {acts : List (Action σ)} (hs : s.Ok)
    (howner : s.OwnerMaintains) (hrun : (Runs.run step s acts).isSome) :
    Runs.Meets step Current s acts ↔
      ∀ p, p <+: acts → ∀ s', Runs.run step s p = some s' → s'.Agree := by
  constructor
  · intro hcurrent p hp s' h
    exact (Runs.run_invariant_meets (fun _ _ _ => step_ok) hs (hcurrent.of_prefix hp) h).agree
  · intro hagree
    induction acts generalizing s with
    | nil => exact .nil
    | cons a acts ih =>
      obtain ⟨s', h⟩ := Option.isSome_iff_exists.mp hrun
      obtain ⟨s₁, hstep, hrun⟩ := Runs.run_cons.mp h
      -- the first publish that is not current would show
      have hcurrent : s.Current a := by
        by_contra hne
        refine not_agree_of_not_current hs howner hstep hne (hagree [a] ?_ s₁ ?_)
        · exact List.prefix_append [a] acts
        · exact Runs.run_cons.mpr ⟨s₁, hstep, rfl⟩
      refine .cons hcurrent hstep (ih (step_ok hs hcurrent hstep) (howner.step hstep)
        (Option.isSome_iff_exists.mpr ⟨s', hrun⟩) fun p hp s'' h => ?_)
      exact hagree (a :: p) (List.cons_prefix_cons.mpr ⟨rfl, hp⟩) s'' (Runs.run_cons.mpr ⟨s₁, hstep, h⟩)

/-- A run of an opened handle keeps the published map and the registry in agreement in every state that
it comes by if and only if all its publishes are current. -/
theorem meets_current_iff (role : Role) (txid : ℕ) (committed : σ) {acts : List (Action σ)}
    (hrun : (Runs.run step (new role txid committed) acts).isSome) :
    Runs.Meets step Current (new role txid committed) acts ↔
      ∀ p, p <+: acts → ∀ s, Runs.run step (new role txid committed) p = some s → s.Agree :=
  meets_current_iff_of_ok (new_ok role txid committed) (fun _ hm => by cases hm) hrun

/-- The attachment beside a maintenance commit runs into disagreement. -/
theorem meets_current_iff_attach :
    ¬Runs.Meets step Current (new .owner 0 0) attachDuringMaintenance := by
  rw [meets_current_iff .owner 0 0 rfl]
  intro h
  have := congrFun (h _ (List.prefix_refl _) _ rfl) "a"
  cases this

end Shared

end Jed.Commit
