import Jed.PMap.SimMap

/-!
# Snapshots

Any number of `PMap` handles over shared nodes, cloned, edited and dropped in any order. The
reference keeps, for each handle, the edits that handle received, a clone starting from the edits of
the handle it was cloned from; a handle must read as the sorted map those edits make.
-/

namespace Jed.PMap

open Arc

variable {ε ρ : Type} {cap : Cap} {shape : LeafShape}

/-- An edit of one handle. -/
inductive Edit (ρ : Type) where
  | insert (key : Bytes) (rec : Rec ρ)
  | remove (key : Bytes)
  deriving DecidableEq, Repr

/-- An operation on the handle in a slot. -/
inductive Op (ρ : Type) where
  | edit (slot : Nat) (e : Edit ρ)
  | clone (slot : Nat)
  | drop (slot : Nat)
  deriving DecidableEq, Repr

/-- The slot an operation is about. -/
def Op.slot : Op ρ → Nat
  | .edit i _ => i
  | .clone i => i
  | .drop i => i

/-- The record an edit inserts stays within the record cap. -/
def Edit.Fits (cap : Cap) (shape : LeafShape) : Edit ρ → Prop
  | .insert key rec => RecordOk cap shape key rec.weight
  | .remove _ => True

/-- The record an operation inserts stays within the record cap. -/
def Op.Fits (cap : Cap) (shape : LeafShape) : Op ρ → Prop
  | .edit _ e => e.Fits cap shape
  | _ => True

instance (cap : Cap) (shape : LeafShape) : (e : Edit ρ) → Decidable (e.Fits cap shape)
  | .insert key rec => inferInstanceAs (Decidable (RecordOk cap shape key rec.weight))
  | .remove _ => inferInstanceAs (Decidable True)

instance (cap : Cap) (shape : LeafShape) : (op : Op ρ) → Decidable (op.Fits cap shape)
  | .edit _ e => inferInstanceAs (Decidable (e.Fits cap shape))
  | .clone _ => inferInstanceAs (Decidable True)
  | .drop _ => inferInstanceAs (Decidable True)

/-- The handles alive, and the nodes they share. -/
structure Session (ε ρ : Type) where
  heap : Heap ε ρ
  handles : List (Option PMap)

/-- One empty map. -/
def Session.new : Session ε ρ := ⟨⟨[]⟩, [some PMap.new]⟩

/-- Apply one edit to a handle. -/
def applyEdit (src : Option (LeafSource ε ρ)) (cap : Cap) (shape : LeafShape) (h : Heap ε ρ)
    (m : PMap) : Edit ρ → Except (Fault ε) (Option ρ) × PMap × Heap ε ρ
  | .insert key rec => m.insert src cap shape h key rec
  | .remove key => m.remove src cap shape h key

/-- One operation: what it returns, and the session it leaves. A slot without a handle is skipped. -/
def Session.step (src : Option (LeafSource ε ρ)) (cap : Cap) (shape : LeafShape) (s : Session ε ρ)
    (op : Op ρ) : Except (Fault ε) (Option ρ) × Session ε ρ :=
  match (s.handles[op.slot]?).join with
  | none => (.ok none, s)
  | some m =>
    match op with
    | .edit i e =>
      let (res, m', h) := applyEdit src cap shape s.heap m e
      (res, ⟨h, s.handles.set i (some m')⟩)
    | .clone _ =>
      let (m', h) := PMap.clone s.heap m
      (.ok none, ⟨h, s.handles ++ [some m']⟩)
    | .drop i => (.ok none, ⟨PMap.drop s.heap m, s.handles.set i none⟩)

/-- A run of operations, and what each returned. -/
def Session.run (src : Option (LeafSource ε ρ)) (cap : Cap) (shape : LeafShape) (s : Session ε ρ) :
    List (Op ρ) → List (Except (Fault ε) (Option ρ)) × Session ε ρ
  | [] => ([], s)
  | op :: ops =>
    let (res, s) := s.step src cap shape op
    let (ress, s) := Session.run src cap shape s ops
    (res :: ress, s)

/-- The key an edit is about. -/
def Edit.key : Edit ρ → Bytes
  | .insert key _ => key
  | .remove key => key

/-- An edit of a sorted map. -/
def Edit.apply (m : List (Bytes × ρ)) : Edit ρ → List (Bytes × ρ)
  | .insert key rec => SortedMap.insert key rec.row m
  | .remove key => SortedMap.erase key m

/-- The sorted map that received exactly these edits. -/
def refMap (edits : List (Edit ρ)) : List (Bytes × ρ) := edits.foldl Edit.apply []

/-- The reference: the edits each handle received. -/
abbrev History (ρ : Type) := List (Option (List (Edit ρ)))

/-- One operation of the reference: an edit goes to its own slot alone. -/
def History.step (hist : History ρ) (op : Op ρ) : Option ρ × History ρ :=
  match (hist[op.slot]?).join with
  | none => (none, hist)
  | some edits =>
    match op with
    | .edit i e => (SortedMap.get e.key (refMap edits), hist.set i (some (edits ++ [e])))
    | .clone _ => (none, hist ++ [some edits])
    | .drop i => (none, hist.set i none)

/-- A run of the reference. -/
def History.run (hist : History ρ) : List (Op ρ) → List (Option ρ) × History ρ
  | [] => ([], hist)
  | op :: ops =>
    let (res, hist) := hist.step op
    let (ress, hist) := History.run hist ops
    (res :: ress, hist)

/-- Nothing is on disk. -/
def noDisk : Disk ρ := fun _ => none

theorem noDisk_sourceOk (src : Option (LeafSource ε ρ)) : SourceOk noDisk src :=
  ⟨fun _ _ h => (by cases h), fun _ _ _ _ _ _ h => (by cases h)⟩

theorem noDisk_noPages : ¬HasPages (noDisk : Disk ρ) := by
  rintro ⟨p, hp⟩
  cases hp

/-- The references the live handles hold. -/
def handleRefs (handles : List (Option PMap)) : List Addr :=
  handles.flatMap (fun m => (m.map PMap.refs).getD [])

/-- A live handle represents a well-formed map whose rows are those of its edits. -/
inductive HandleOk (cap : Cap) (shape : LeafShape) (h : Heap ε ρ) :
    Option PMap → Option (List (Edit ρ)) → Prop where
  | dead : HandleOk cap shape h none none
  | live {m : PMap} {edits : List (Edit ρ)} (tm : TreeMap ρ) (hr : MapRep noDisk h m tm)
      (hok : tm.Ok cap shape) (hrows : SortedMap.mapValues Rec.row tm.contents = refMap edits) :
      HandleOk cap shape h (some m) (some edits)

/-- The invariant of a session: the counts are exact, and every handle is in step with the
    reference. -/
structure Session.Ok (cap : Cap) (shape : LeafShape) (s : Session ε ρ) (hist : History ρ) : Prop where
  counted : Counted Node.kids s.heap (handleRefs s.handles)
  handles : List.Forall₂ (HandleOk cap shape s.heap) s.handles hist

theorem Session.new_ok : (Session.new : Session ε ρ).Ok cap shape [some []] where
  counted := fun _ => rfl
  handles := .cons (.live TreeMap.new .new TreeMap.new_ok rfl) .nil

theorem handleRefs_append (xs ys : List (Option PMap)) :
    handleRefs (xs ++ ys) = handleRefs xs ++ handleRefs ys := by simp [handleRefs]

theorem handleRefs_cons (x : Option PMap) (xs : List (Option PMap)) :
    handleRefs (x :: xs) = (x.map PMap.refs).getD [] ++ handleRefs xs := by simp [handleRefs]

variable {h h' : Heap ε ρ} {m : Option PMap} {live : List Addr}

theorem HandleOk.extends {edits : Option (List (Edit ρ))}
    (hh : HandleOk cap shape h m edits) (he : Extends Node.kids live h h')
    (hl : ∀ a ∈ (m.map PMap.refs).getD [], a ∈ live) : HandleOk cap shape h' m edits := by
  cases hh with
  | dead => exact .dead
  | live tm hr hok hrows => exact .live tm (hr.extends he hl) hok hrows

variable {ms : List (Option PMap)} {es : List (Option (List (Edit ρ)))}

theorem handles_extends (hh : List.Forall₂ (HandleOk cap shape h) ms es) (he : Extends Node.kids live h h')
    (hl : ∀ a ∈ handleRefs ms, a ∈ live) : List.Forall₂ (HandleOk cap shape h') ms es := by
  induction hh with
  | nil => exact .nil
  | cons hm _ ih =>
    rw [handleRefs_cons] at hl
    exact .cons (hm.extends he (fun a ha => hl a (List.mem_append_left _ ha)))
      (ih (fun a ha => hl a (List.mem_append_right _ ha)))

theorem refMap_append (edits : List (Edit ρ)) (e : Edit ρ) :
    refMap (edits ++ [e]) = e.apply (refMap edits) := by simp [refMap]

/-- One edit of the tree value. -/
def TreeMap.edit (cap : Cap) (shape : LeafShape) (tm : TreeMap ρ) :
    Edit ρ → Option (Option ρ × TreeMap ρ)
  | .insert key rec => tm.insert cap shape key rec
  | .remove key => tm.remove cap shape key

variable {e : Edit ρ} {tm : TreeMap ρ}

/-- An edit of the tree value returns what the key was bound to and edits the rows. -/
theorem TreeMap.edit_spec (hsep : SepFits cap shape) (hok : tm.Ok cap shape)
    (hfits : e.Fits cap shape) :
    ∃ tm', tm.edit cap shape e = some ((SortedMap.get e.key tm.contents).map Rec.row, tm') ∧
      tm'.Ok cap shape ∧ SortedMap.mapValues Rec.row tm'.contents =
        e.apply (SortedMap.mapValues Rec.row tm.contents) := by
  cases e with
  | insert key rec =>
    obtain ⟨tm', hins, hok', hcont⟩ := TreeMap.insert_spec hsep hok hfits
    refine ⟨tm', hins, hok', ?_⟩
    rw [hcont, SortedMap.insert_mapValues]
    rfl
  | remove key =>
    obtain ⟨tm', hrem, hok', hcont⟩ := TreeMap.remove_spec hok key
    refine ⟨tm', hrem, hok', ?_⟩
    rw [hcont, SortedMap.erase_mapValues]
    rfl

variable {owned : List Addr}

/-- An edit of a handle computes the edit of the tree value it represents. -/
theorem applyEdit_rep (src : Option (LeafSource ε ρ)) {m : PMap} {tm' : TreeMap ρ}
    {old : Option ρ} (hc : Counted Node.kids h (m.refs ++ owned))
    (hr : MapRep noDisk h m tm) (he : tm.edit cap shape e = some (old, tm')) :
    ∃ m' h', applyEdit src cap shape h m e = (.ok old, m', h') ∧ Extends Node.kids owned h h' ∧
      Counted Node.kids h' (m'.refs ++ owned) ∧ MapRep noDisk h' m' tm' := by
  have hpost : MapPost noDisk owned h tm' old (applyEdit src cap shape h m e) := by
    cases e with
    | insert key rec => exact pmapInsert_spec (noDisk_sourceOk src) hc hr he
    | remove key => exact pmapRemove_spec (noDisk_sourceOk src) hc hr he
  revert hpost
  generalize applyEdit src cap shape h m e = r
  intro hpost
  cases hpost with
  | done he hc' hr' => exact ⟨_, _, rfl, he, hc', hr'⟩
  | failed hs => exact absurd hs noDisk_noPages

/-- An edit of a handle returns what the reference held, and leaves a handle in step with it. -/
theorem applyEdit_spec (src : Option (LeafSource ε ρ)) (hsep : SepFits cap shape)
    {m : PMap} {edits : List (Edit ρ)}
    (hfits : e.Fits cap shape) (hc : Counted Node.kids h (m.refs ++ owned))
    (hh : HandleOk cap shape h (some m) (some edits)) :
    ∃ m' h', applyEdit src cap shape h m e = (.ok (SortedMap.get e.key (refMap edits)), m', h') ∧
      Extends Node.kids owned h h' ∧ Counted Node.kids h' (m'.refs ++ owned) ∧
      HandleOk cap shape h' (some m') (some (edits ++ [e])) := by
  rcases hh with _ | ⟨tm, hr, hok, hrows⟩
  obtain ⟨tm', hedit, hok', hrows'⟩ := TreeMap.edit_spec hsep hok hfits
  obtain ⟨m', h', heq, hext, hcnt, hr'⟩ := applyEdit_rep src hc hr hedit
  refine ⟨m', h', ?_, hext, hcnt, .live tm' hr' hok' ?_⟩
  · rw [heq, ← hrows, SortedMap.get_mapValues]
  · rw [hrows', hrows, refMap_append]

/-- A slot holds no handle on either side, or a handle in step with its edits. -/
theorem slot_cases (hh : List.Forall₂ (HandleOk cap shape h) ms es) (i : Nat) :
    ((ms[i]?).join = none ∧ (es[i]?).join = none) ∨
      ∃ m edits, ms[i]? = some (some m) ∧ es[i]? = some (some edits) ∧
        HandleOk cap shape h (some m) (some edits) := by
  cases hes : es[i]? with
  | none =>
    rw [List.getElem?_eq_none_iff, ← hh.length_eq, ← List.getElem?_eq_none_iff] at hes
    exact .inl ⟨by rw [hes]; rfl, rfl⟩
  | some e =>
    obtain ⟨m, hm, hme, -, -⟩ := forall₂_cut hh hes
    cases hme with
    | dead => exact .inl ⟨by rw [hm]; rfl, rfl⟩
    | live tm hr hok hrows => exact .inr ⟨_, _, hm, rfl, .live tm hr hok hrows⟩

variable {i : Nat}

/-- Replace the handle in slot `i` by one that is in step, keeping the others. -/
theorem handles_set
    {m' : Option PMap} {e' : Option (List (Edit ρ))}
    (hh : List.Forall₂ (HandleOk cap shape h) ms es) (hm : ms[i]? = some m)
    (he : Extends Node.kids (handleRefs (ms.take i) ++ handleRefs (ms.drop (i + 1))) h h')
    (hnew : HandleOk cap shape h' m' e') :
    List.Forall₂ (HandleOk cap shape h') (ms.set i m') (es.set i e') := by
  obtain ⟨hi, -⟩ := List.getElem?_eq_some_iff.mp hm
  have hi' : i < es.length := hh.length_eq ▸ hi
  rw [Splice.set_eq hi, Splice.set_eq hi']
  exact forall₂_append
    (handles_extends (List.forall₂_take i hh) he (fun a ha => List.mem_append_left _ ha))
    (.cons hnew (handles_extends (List.forall₂_drop (i + 1) hh) he
      (fun a ha => List.mem_append_right _ ha)))

theorem handleRefs_open (hm : ms[i]? = some m) :
    ((m.map PMap.refs).getD [] ++ (handleRefs (ms.take i) ++ handleRefs (ms.drop (i + 1)))).Perm
      (handleRefs ms) := by
  conv_rhs => rw [Splice.eq_cut hm]
  rw [handleRefs_append, handleRefs_cons]
  exact List.perm_append_comm_assoc ..

theorem handleRefs_set (hi : i < ms.length) (m' : Option PMap) :
    ((m'.map PMap.refs).getD [] ++ (handleRefs (ms.take i) ++ handleRefs (ms.drop (i + 1)))).Perm
      (handleRefs (ms.set i m')) := by
  rw [Splice.set_eq hi, handleRefs_append, handleRefs_cons]
  exact List.perm_append_comm_assoc ..

/-- One step of the session follows the reference, keeps every handle in another slot, and changes
    nothing such a handle reaches. -/
theorem Session.step_spec (src : Option (LeafSource ε ρ)) (hsep : SepFits cap shape) {s : Session ε ρ}
    {hist : History ρ} (hs : s.Ok cap shape hist) {op : Op ρ} (hop : op.Fits cap shape) :
    (s.step src cap shape op).1 = .ok (hist.step op).1 ∧
      (s.step src cap shape op).2.Ok cap shape (hist.step op).2 ∧
      ∀ j, j ≠ op.slot → j < s.handles.length →
        (s.step src cap shape op).2.handles[j]? = s.handles[j]? ∧
          (hist.step op).2[j]? = hist[j]? := by
  unfold Session.step History.step
  rcases slot_cases hs.handles op.slot with ⟨hm, he⟩ | ⟨m, edits, hm, he, hh⟩
  · rw [hm, he]
    exact ⟨rfl, hs, fun _ _ _ => ⟨rfl, rfl⟩⟩
  · rw [hm, he]
    obtain ⟨hi, -⟩ := List.getElem?_eq_some_iff.mp hm
    have hcut := hs.counted.perm (handleRefs_open hm).symm
    have hset : ∀ {m' : Option PMap} {e' : Option (List (Edit ρ))} {j : Nat}, j ≠ op.slot →
        (s.handles.set op.slot m')[j]? = s.handles[j]? ∧ (hist.set op.slot e')[j]? = hist[j]? :=
      fun hj => ⟨List.getElem?_set_ne (Ne.symm hj), List.getElem?_set_ne (Ne.symm hj)⟩
    cases op with
    | edit i e =>
      obtain ⟨m', h', heq, hext, hcnt, hnew⟩ :=
        applyEdit_spec src hsep hop hcut hh
      simp only [Option.join_some, heq]
      exact ⟨trivial, ⟨hcnt.perm (handleRefs_set hi (some m')), handles_set hs.handles hm hext hnew⟩,
        fun j hj _ => hset hj⟩
    | clone i =>
      have hlive : ∀ a ∈ m.refs, ∃ c, s.heap.cell a = some c := by
        intro a ha
        obtain ⟨c, hc, -⟩ := hcut.owned_live (List.mem_append_left _ ha)
        exact ⟨c, hc⟩
      obtain ⟨hcnt, hext⟩ := cloneAll_spec hs.counted hlive
      dsimp only [Option.join_some, PMap.clone]
      refine ⟨rfl, ⟨?_, ?_⟩, fun j _ hj => ⟨?_, ?_⟩⟩
      · refine hcnt.perm ?_
        rw [handleRefs_append, handleRefs_cons]
        simpa [handleRefs] using List.perm_append_comm
      · exact forall₂_append (handles_extends hs.handles (hext _) (fun a ha => ha))
          (.cons (hh.extends (hext m.refs) (fun a ha => ha)) .nil)
      · exact List.getElem?_append_left hj
      · exact List.getElem?_append_left (hs.handles.length_eq ▸ hj)
    | drop i =>
      obtain ⟨hcnt, hext⟩ := dropAll_spec s.heap m.refs hcut
      exact ⟨rfl, ⟨hcnt.perm (handleRefs_set hi none), handles_set hs.handles hm hext .dead⟩,
        fun j hj _ => hset hj⟩

/-- A run of the session returns what the reference returns, and ends in step with it. -/
theorem Session.run_spec (src : Option (LeafSource ε ρ)) (hsep : SepFits cap shape) {ops : List (Op ρ)} :
    ∀ {s : Session ε ρ} {hist : History ρ}, s.Ok cap shape hist →
      (∀ op ∈ ops, op.Fits cap shape) →
      (s.run src cap shape ops).1 = (hist.run ops).1.map .ok ∧
        (s.run src cap shape ops).2.Ok cap shape (hist.run ops).2 := by
  induction ops with
  | nil => exact fun hs _ => ⟨rfl, hs⟩
  | cons op ops ih =>
    intro s hist hs hops
    obtain ⟨hres, hok, -⟩ := Session.step_spec src hsep hs (hops op List.mem_cons_self)
    obtain ⟨hress, hoks⟩ := ih hok (fun op' h' => hops op' (List.mem_cons_of_mem _ h'))
    exact ⟨by simp only [Session.run, History.run, hres, hress, List.map_cons], hoks⟩

/-- What a handle in step with its edits reads. -/
theorem HandleOk.reads (src : Option (LeafSource ε ρ)) {m : PMap}
    {edits : List (Edit ρ)} (hh : HandleOk cap shape h (some m) (some edits)) :
    (∀ key, m.get src h key = .ok (SortedMap.get key (refMap edits))) ∧
      m.iter src h = .ok (refMap edits) ∧ m.count = some ((refMap edits).length : Int) := by
  rcases hh with _ | ⟨tm, hr, hok, hrows⟩
  refine ⟨fun key => ?_, ?_, ?_⟩
  · rw [(get_spec (noDisk_sourceOk src) hr key).eq_ok noDisk_noPages, TreeMap.get_eq hok, ← hrows,
      SortedMap.get_mapValues]
  · rw [(iter_spec (noDisk_sourceOk src) hr).eq_ok noDisk_noPages, hrows]
  · rw [hr.count, hok.count, ← hrows, SortedMap.mapValues, List.length_map]

/-- `PMap` refines a finite sorted map with snapshots: in every run of edits, clones and drops from
    the empty map, every edit returns the reference's previous value, every live handle reads as the
    sorted map that received exactly its edits, and a step on one slot changes neither a handle in
    another slot nor anything that handle reads. -/
theorem pmap_refines_sorted_map (src : Option (LeafSource ε ρ)) (cap : Cap) (shape : LeafShape)
    (hsep : SepFits cap shape) (ops : List (Op ρ)) (hops : ∀ op ∈ ops, op.Fits cap shape) :
    let run := (Session.new : Session ε ρ).run src cap shape ops
    let ref := History.run [some []] ops
    run.1 = ref.1.map .ok ∧ run.2.handles.length = ref.2.length ∧
      (∀ i : Nat, (run.2.handles[i]?).join.isSome = (ref.2[i]?).join.isSome) ∧
      (∀ (i : Nat) (m : PMap) (edits : List (Edit ρ)), run.2.handles[i]? = some (some m) →
        ref.2[i]? = some (some edits) →
        (∀ key, m.get src run.2.heap key = .ok (SortedMap.get key (refMap edits))) ∧
          m.iter src run.2.heap = .ok (refMap edits) ∧
          m.count = some ((refMap edits).length : Int)) ∧
      ∀ (op : Op ρ), op.Fits cap shape → ∀ (j : Nat) (m : PMap), j ≠ op.slot →
        run.2.handles[j]? = some (some m) →
        let next := (run.2.step src cap shape op).2
        next.handles[j]? = some (some m) ∧
          (∀ key, m.get src next.heap key = m.get src run.2.heap key) ∧
          m.iter src next.heap = m.iter src run.2.heap := by
  intro run ref
  obtain ⟨hres, hok⟩ := Session.run_spec src hsep Session.new_ok hops
  have hslot := slot_cases hok.handles
  refine ⟨hres, hok.handles.length_eq, fun i => ?_, fun i m edits hm he => ?_,
    fun op hop j m hj hm => ?_⟩
  · rcases hslot i with ⟨h1, h2⟩ | ⟨m, edits, h1, h2, -⟩
    · rw [show (run.2.handles[i]?).join = none from h1, show (ref.2[i]?).join = none from h2]
      rfl
    · rw [show run.2.handles[i]? = _ from h1, show ref.2[i]? = _ from h2]
      rfl
  · obtain ⟨m', hm', hh, -, -⟩ := forall₂_cut hok.handles he
    obtain rfl : some m = m' := Option.some.inj (hm.symm.trans hm')
    exact hh.reads src
  · obtain ⟨-, hok', hkeep⟩ := Session.step_spec src hsep hok hop
    obtain ⟨hlt, -⟩ := List.getElem?_eq_some_iff.mp hm
    obtain ⟨hk1, hk2⟩ := hkeep j hj hlt
    have hm1 : (run.2.step src cap shape op).2.handles[j]? = some (some m) := hk1.trans hm
    have hread : ∃ edits, HandleOk cap shape run.2.heap (some m) (some edits) ∧
        HandleOk cap shape (run.2.step src cap shape op).2.heap (some m) (some edits) := by
      rcases hslot j with ⟨h1, -⟩ | ⟨m0, edits, h1, h2, hh⟩
      · rw [show run.2.handles[j]? = _ from hm] at h1
        cases h1
      · obtain rfl : m0 = m := Option.some.inj (Option.some.inj (h1.symm.trans hm))
        obtain ⟨m', hm', hh', -, -⟩ := forall₂_cut hok'.handles (hk2.trans h2)
        obtain rfl : some m0 = m' := Option.some.inj (hm1.symm.trans hm')
        exact ⟨edits, hh, hh'⟩
    obtain ⟨edits, hh, hh'⟩ := hread
    obtain ⟨hg, hi, -⟩ := hh.reads src
    obtain ⟨hg', hi', -⟩ := hh'.reads src
    exact ⟨hm1, fun key => (hg' key).trans (hg key).symm, hi'.trans hi.symm⟩

/-- Two maps that share a leaf, and are edited apart. -/
def sharedEdits : List (Op Nat) :=
  [.edit 0 (.insert [1] ⟨10, 80⟩), .edit 0 (.insert [2] ⟨20, 80⟩), .clone 0,
    .edit 1 (.insert [3] ⟨30, 80⟩), .edit 0 (.remove [1]), .edit 1 (.insert [2] ⟨21, 80⟩)]

theorem pmap_refines_sorted_map_shared :
    let run := (Session.new : Session Unit Nat).run none (Cap.plain 256) ⟨0, 0⟩ sharedEdits
    run.1 = (History.run [some []] sharedEdits).1.map .ok ∧
      run.2.handles.length = (History.run [some []] sharedEdits).2.length :=
  have h := pmap_refines_sorted_map (none : Option (LeafSource Unit Nat)) (Cap.plain 256) ⟨0, 0⟩
    (Cap.WellFormed.sepFits (.inl rfl) _) sharedEdits (by decide)
  ⟨h.1, h.2.1⟩

/-- Six records under short keys, then one whose key is as long as the record cap allows. -/
def longSeparator : List (Op Nat) :=
  [1, 2, 3, 4, 5, 6].map (fun k => .edit 0 (.insert [k] ⟨0, 31⟩)) ++
    [.edit 0 (.insert (List.replicate 31 7) ⟨0, 31⟩)]

/-- At 74 bytes of tagged capacity a separator of 31 bytes does not fit between two pointers, so the
    three separators around it have no split point: the insert panics on its `expect`. -/
theorem tiny_tagged_cap_panics :
    (∀ op ∈ longSeparator, op.Fits ⟨74, TAG_LEN⟩ ⟨0, 0⟩) ∧
      ((Session.new : Session Unit Nat).run none ⟨74, TAG_LEN⟩ ⟨0, 0⟩ longSeparator).1.getLast? =
        some (.error .panic) ∧
      (History.run [some []] longSeparator).1.getLast? = some none := by
  refine ⟨by decide, ?_, by decide +kernel⟩
  decide +kernel

end Jed.PMap
