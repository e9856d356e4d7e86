import Jed.Dml.Write

/-!
# Statements and their runs

A write statement is one write, or the data-modifying parts of a WITH, each reading the state the statement
began with and writing what the earlier ones have left. What holds after every write of every statement, and
of which row of the statement's beginning each stored row is a version.
-/

namespace Jed.Dml

open LastWrite Results

variable {P K ρ : Type} [DecidableEq P] [DecidableEq K]

/-- What a write of a statement has done. -/
structure Step (K ρ : Type) where
  view : View
  actions : List (Action K ρ)

/-- The row `n` stored under `k` is a version of the row that the statement found under the key `src`, or a
row that it inserted. The writes stand with the latest first. -/
def Standing (pin : Table P K ρ) : List (Step K ρ) → Option K → K → ρ → Prop
  | [], src, k, n => pin.rows.lookup k = some n ∧ src = some k
  | step :: earlier, src, k, n =>
    (∃ a ∈ step.actions, a.new? = some (k, n) ∧
      match a.old?, step.view with
      | none, _ => src = none
      | some (old, _), .pin => src = some old
      | some (old, o), .working => Standing pin earlier src old o) ∨
    Standing pin earlier src k n ∧ k ∉ oldKeys step.actions ∧ k ∉ placedKeys step.actions

/-- The action that takes away the row under `k`. -/
def taker (actions : List (Action K ρ)) (k : K) : Option (Action K ρ) :=
  actions.find? fun a => decide (a.old?.map Prod.fst = some k)

/-- Last write wins: what the last part that updates or deletes the row of the statement's beginning under
`k` leaves of it, with the key it lies under. A child write follows the row to where it lies. -/
def lastWrite (pin : Table P K ρ) : List (Step K ρ) → K → Option (K × ρ)
  | [], k => (pin.rows.lookup k).map (k, ·)
  | step :: earlier, k =>
    match step.view with
    | .pin =>
      match taker step.actions k with
      | some a => a.new?
      | none => lastWrite pin earlier k
    | .working =>
      match lastWrite pin earlier k with
      | none => none
      | some (k', n) =>
        match taker step.actions k' with
        | some a => a.new?
        | none => some (k', n)

/-- What is to hold of a state that the writes `history` of a statement have reached: a consistent table,
whose rows are the standing versions, of each row its last write alone. -/
structure Kept (d : TableDef K ρ) (pin : Table P K ρ) (history : List (Step K ρ)) (t : Table P K ρ) : Prop where
  consistent : t.Consistent d
  stored : ∀ k n, t.rows.lookup k = some n ↔ ∃ src, Standing pin history src k n
  alone : ∀ {row k : K} {n : ρ}, Standing pin history (some row) k n → lastWrite pin history row = some (k, n)

/-- A statement under way: it began at `pin`, and its writes, each of which met the condition `C` in the
state before it, have reached `t`. -/
inductive Run (d : TableDef K ρ) (C : Table P K ρ → List (Step K ρ) → Table P K ρ → Step K ρ → Prop)
    (pin : Table P K ρ) : List (Step K ρ) → Table P K ρ → Prop where
  | start : Run d C pin [] pin
  | write {history : List (Step K ρ)} {t t' : Table P K ρ} {actions : List (Action K ρ)} (part : Part K ρ) :
    Run d C pin history t → Scanned d (part.view.read pin t) part.kind actions →
    part.exec d pin t = .ok (t', actions) → C pin history t ⟨part.view, actions⟩ →
    Run d C pin (⟨part.view, actions⟩ :: history) t'

/-- The states between statements. A statement that fails leaves the state before it. -/
inductive Reached (d : TableDef K ρ) (C : Table P K ρ → List (Step K ρ) → Table P K ρ → Step K ρ → Prop)
    (t₀ : Table P K ρ) : Table P K ρ → Prop where
  | start : Reached d C t₀ t₀
  | statement {pin t : Table P K ρ} {history : List (Step K ρ)} : Reached d C t₀ pin → Run d C pin history t →
    Reached d C t₀ t

/-- The part touches the key of every standing version of the rows it updates or deletes. -/
def Meets (pin : Table P K ρ) (history : List (Step K ρ)) (actions : List (Action K ρ)) : Prop :=
  ∀ c ∈ actions, ∀ {row k : K} {o n : ρ}, c.old? = some (row, o) → Standing pin history (some row) k n →
    k ∈ oldKeys actions ∨ k ∈ placedKeys actions

/-- The condition: what earlier parts have done to the rows that a later part of a WITH updates or deletes
leaves the entries that the part's moves from the old rows expect, no earlier part has stored a probe that the
part places, and the earlier versions lie under keys that the part writes. -/
def Clear (pin : Table P K ρ) (history : List (Step K ρ)) (t : Table P K ρ) (step : Step K ρ) : Prop :=
  step.view = .pin → history ≠ [] →
    Harmless step.actions t ∧ Unclaimed step.actions t ∧ Meets pin history step.actions

section Taker

variable {actions : List (Action K ρ)} {k : K}

omit [DecidableEq P] in
theorem taker_eq (hdist : Distinct actions) {c : Action K ρ} {o : ρ} (hc : c ∈ actions) (ho : c.old? = some (k, o)) :
    taker actions k = some c := by
  cases hfind : taker actions k with
  | none =>
    have hno := List.find?_eq_none.1 hfind c hc
    simp [ho] at hno
  | some b =>
    have hb := List.find?_some hfind
    rw [decide_eq_true_eq, Option.map_eq_some_iff] at hb
    obtain ⟨⟨k', o'⟩, hbo, heq⟩ := hb
    change k' = k at heq
    rw [heq] at hbo
    rw [hdist.old_inj hc (List.mem_of_find?_eq_some hfind) ho hbo]

omit [DecidableEq P] in
theorem taker_none (h : k ∉ oldKeys actions) : taker actions k = none := by
  refine List.find?_eq_none.2 fun a ha htakes => h ?_
  rw [decide_eq_true_eq, Option.map_eq_some_iff] at htakes
  obtain ⟨⟨k', o⟩, ho, heq⟩ := htakes
  change k' = k at heq
  exact mem_oldKeys.2 ⟨a, ha, o, by rw [← heq]; exact ho⟩

end Taker

/-- What a write of a statement that succeeds does, from a consistent table. -/
structure Wrote (d : TableDef K ρ) (view t t' : Table P K ρ) (kind : Kind) (actions : List (Action K ρ)) : Prop where
  scanned : Scanned d view kind actions
  checked : Checked d view kind actions
  applied : Applied actions t t'
  nextRowid : t.nextRowid ≤ t'.nextRowid
  indexes : t'.indexes.map (·.index) = t.indexes.map (·.index)
  keyed : ∀ {k : K} {n : ρ}, (k, n) ∈ placed actions →
    match d.pk with
    | some pk => pk n = .ok k
    | none => ∃ m < t'.nextRowid, k = d.rowid m

theorem wrote {d : TableDef K ρ} {pin t t' : Table P K ρ} {part : Part K ρ} {actions : List (Action K ρ)}
    (hview : (part.view.read pin t).Consistent d) (hnext : (part.view.read pin t).nextRowid ≤ t.nextRowid)
    (hscan : Scanned d (part.view.read pin t) part.kind actions) (h : part.exec d pin t = .ok (t', actions)) :
    Wrote d (part.view.read pin t) t t' part.kind actions := by
  simp only [Part.exec, bind_eq_ok, pure_eq_ok, Prod.exists, Prod.mk.injEq] at h
  obtain ⟨actions', next, hresolve, _, hvalidate, t'', hwrite, rfl, rfl⟩ := h
  have hres := resolved hresolve
  have hrowid : d.pk = none → ∀ {k : K} {row : ρ}, (part.view.read pin t).rows.lookup k = some row →
      ∃ n < t.nextRowid, k = d.rowid n := by
    intro hpk k row hrow
    have hk := hview.keyed hrow
    rw [hpk] at hk
    obtain ⟨n, hn, hkn⟩ := hk
    exact ⟨n, by omega, hkn⟩
  have hchecked := checked hscan hres hrowid hvalidate
  obtain ⟨happlied, hafter, hindexes⟩ := applied hchecked hscan.shape hwrite
  have hle := hres.next_le
  refine ⟨hscan, hchecked, happlied, by omega, hindexes, fun {k n} hplaced => ?_⟩
  cases new_cases hplaced with
  | inl hins =>
    have hk := hres.keyed hins
    cases hpk : d.pk with
    | some pk =>
      rw [hpk] at hk
      exact hk
    | none =>
      rw [hpk] at hk
      obtain ⟨m, -, hm, hkm⟩ := hk
      exact ⟨m, by omega, hkm⟩
  | inr hupd =>
    obtain ⟨oldKey, oldRow, hupd⟩ := hupd
    have hk := hscan.keyed hupd
    cases hpk : d.pk with
    | some pk =>
      rw [hpk] at hk
      exact hk
    | none =>
      rw [hpk] at hk
      obtain ⟨m, hm, hkm⟩ := hrowid hpk (hscan.found _ hupd rfl)
      exact ⟨m, by omega, hk.trans hkm⟩

theorem Part.exec_indexes {d : TableDef K ρ} {pin t t' : Table P K ρ} {part : Part K ρ} {actions : List (Action K ρ)}
    (h : part.exec d pin t = .ok (t', actions)) : t'.indexes.map (·.index) = t.indexes.map (·.index) := by
  simp only [Part.exec, bind_eq_ok, pure_eq_ok, Prod.exists, Prod.mk.injEq] at h
  obtain ⟨_, _, -, _, -, _, hwrite, rfl, -⟩ := h
  exact write_indexes hwrite

section Wrote

variable {d : TableDef K ρ} {view t t' : Table P K ρ} {kind : Kind} {actions : List (Action K ρ)}

omit [DecidableEq P] in
/-- The checks read the unique indexes of the table that is written. -/
theorem Wrote.unique (h : Wrote d view t t' kind actions)
    (hindexes : view.indexes.map (·.index) = t.indexes.map (·.index)) {s : IndexStore P K ρ} (hs : s ∈ t.indexes)
    (hunique : s.index.unique = true) (hne : placed actions ≠ []) :
    ∃ s' ∈ view.indexes, s'.index = s.index ∧
      ∃ vacated, UniqueOk s' vacated ((placed actions).map Prod.snd) ∧ ∀ k ∈ vacated, k ∈ oldKeys actions := by
  have hmem : s.index ∈ view.indexes.map (·.index) := by
    rw [hindexes]
    exact List.mem_map_of_mem hs
  obtain ⟨s', hs', heq⟩ := List.mem_map.1 hmem
  exact ⟨s', hs', heq, h.checked.unique s' hs' (by rw [heq]; exact hunique) hne⟩

omit [DecidableEq P] in
theorem Wrote.separate (h : Wrote d view t t' kind actions)
    (hindexes : view.indexes.map (·.index) = t.indexes.map (·.index)) : Separate actions t := by
  intro s hs hunique k k' n n' p hn hn' hp hp'
  obtain ⟨s', -, heq, vacated, hok, -⟩ := h.unique hindexes hs hunique (List.ne_nil_of_mem hn)
  by_contra hne
  have hapart := List.pairwise_map.1 hok.apart
  rw [← heq] at hp hp'
  have hsymm : Std.Symm fun x y : K × ρ =>
      s'.index.probe x.2 = .ok (some p) → s'.index.probe y.2 ≠ .ok (some p) :=
    ⟨fun _ _ hxy hy hx => hxy hx hy⟩
  have hother := (hapart.imp fun h => h p).forall hn hn' fun heq => hne (congrArg Prod.fst heq)
  exact hother hp hp'

omit [DecidableEq P] in
theorem Wrote.harmless (h : Wrote d t t t' kind actions) (ht : t.Consistent d) : Harmless actions t := by
  intro c hc k o ho s hs p
  have hrow := h.scanned.found c hc ho
  have hentries := (ht.derived s hs).entries p k
  rw [hrow] at hentries
  simp only [Option.some.injEq, exists_eq_left'] at hentries
  exact ⟨fun hmem hno => absurd (hentries.1 hmem) hno, fun _ hold => hentries.2 hold⟩

omit [DecidableEq P] in
theorem Wrote.unclaimed (h : Wrote d t t t' kind actions) (ht : t.Consistent d) : Unclaimed actions t := by
  intro s hs hunique k k' n w p hplaced hp hold _ hrow hw
  obtain ⟨s', hs', heq, vacated, hok, hvacated⟩ := h.unique rfl hs hunique (List.ne_nil_of_mem hplaced)
  rw [← heq] at hp hw hunique
  have hkeys : s'.index.keysOf w = [p] := by
    simp only [Index.keysOf, s'.index.probe_keys hunique hw]
  have hmem : (p, k') ∈ s'.entries :=
    ((ht.derived s' hs').entries p k').2 ⟨w, hrow, by rw [hkeys]; exact List.mem_singleton_self p⟩
  exact hold (hvacated k' (hok.free n (List.mem_map.2 ⟨(k, n), hplaced, rfl⟩) hp hmem))

end Wrote

section Step

variable {d : TableDef K ρ} {pin t t' : Table P K ρ} {history : List (Step K ρ)} {view : View} {kind : Kind}
  {actions : List (Action K ρ)}

omit [DecidableEq P] in
/-- A write that reads what it writes, and one that comes first, meet the condition. -/
theorem Wrote.clear (h : Wrote d (view.read pin t) t t' kind actions) (ht : t.Consistent d)
    (hfirst : history = [] → t = pin) (hclear : Clear pin history t ⟨view, actions⟩) :
    Harmless actions t ∧ Unclaimed actions t ∧ (view = .pin → Meets pin history actions) := by
  cases view with
  | working => exact ⟨h.harmless ht, h.unclaimed ht, fun h => (by cases h)⟩
  | pin =>
    cases history with
    | nil =>
      have heq := hfirst rfl
      subst heq
      refine ⟨h.harmless ht, h.unclaimed ht, fun _ c hc row k o n ho hstanding => .inl ?_⟩
      cases hstanding.2
      exact mem_oldKeys.2 ⟨c, hc, o, ho⟩
    | cons step history =>
      obtain ⟨hharm, hunclaimed, hmeets⟩ := hclear rfl (List.cons_ne_nil _ _)
      exact ⟨hharm, hunclaimed, fun _ => hmeets⟩

omit [DecidableEq P] in
/-- The stored rows are the standing versions. -/
theorem Wrote.stored (h : Wrote d (view.read pin t) t t' kind actions)
    (ht : ∀ k n, t.rows.lookup k = some n ↔ ∃ src, Standing pin history src k n) (k : K) (n : ρ) :
    t'.rows.lookup k = some n ↔ ∃ src, Standing pin (⟨view, actions⟩ :: history) src k n := by
  constructor
  · intro hrow
    cases h.applied.stored hrow with
    | inl hplaced =>
      obtain ⟨a, ha, hnew⟩ := mem_placed.1 hplaced
      cases hold : a.old? with
      | none => exact ⟨none, .inl ⟨a, ha, hnew, by rw [hold]⟩⟩
      | some x =>
        obtain ⟨old, o⟩ := x
        cases view with
        | pin => exact ⟨some old, .inl ⟨a, ha, hnew, by rw [hold]⟩⟩
        | working =>
          obtain ⟨src, hsrc⟩ := (ht old o).1 (h.scanned.found a ha hold)
          exact ⟨src, .inl ⟨a, ha, hnew, by rw [hold]; exact hsrc⟩⟩
    | inr hkept =>
      obtain ⟨src, hsrc⟩ := (ht k n).1 hkept.2.2
      exact ⟨src, .inr ⟨hsrc, hkept.1, hkept.2.1⟩⟩
  · rintro ⟨src, ⟨a, ha, hnew, -⟩ | ⟨hsrc, hold, hplaced⟩⟩
    · exact h.applied.put a ha hnew
    · rw [h.applied.kept hold hplaced]
      exact (ht k n).2 ⟨src, hsrc⟩

omit [DecidableEq P] in
/-- Each row of the beginning stands as its last write left it. -/
theorem Wrote.alone (h : Wrote d (view.read pin t) t t' kind actions)
    (hmeets : view = .pin → Meets pin history actions)
    (ht : ∀ {row k : K} {n : ρ}, Standing pin history (some row) k n → lastWrite pin history row = some (k, n))
    {row k : K} {n : ρ} (hstanding : Standing pin (⟨view, actions⟩ :: history) (some row) k n) :
    lastWrite pin (⟨view, actions⟩ :: history) row = some (k, n) := by
  have hdist := h.checked.distinct
  cases hstanding with
  | inl hplaced =>
    obtain ⟨a, ha, hnew, hsrc⟩ := hplaced
    cases hold : a.old? with
    | none =>
      rw [hold] at hsrc
      cases hsrc
    | some x =>
      obtain ⟨old, o⟩ := x
      rw [hold] at hsrc
      cases view with
      | pin =>
        cases hsrc
        simp only [lastWrite, taker_eq hdist ha hold, hnew]
      | working =>
        simp only [lastWrite, ht hsrc, taker_eq hdist ha hold, hnew]
  | inr hkept =>
    obtain ⟨hsrc, hold, hplaced⟩ := hkept
    cases view with
    | pin =>
      have hfree : row ∉ oldKeys actions := by
        intro hmem
        obtain ⟨c, hc, o, ho⟩ := mem_oldKeys.1 hmem
        cases hmeets rfl c hc ho hsrc with
        | inl hk => exact hold hk
        | inr hk => exact hplaced hk
      simp only [lastWrite, taker_none hfree, ht hsrc]
    | working => simp only [lastWrite, ht hsrc, taker_none hold]

end Step

section Run

variable {d : TableDef K ρ} {C : Table P K ρ → List (Step K ρ) → Table P K ρ → Step K ρ → Prop}
  {pin t t₀ : Table P K ρ} {history : List (Step K ρ)}

theorem Run.first (h : Run d C pin history t) (hnil : history = []) : t = pin := by
  cases h with
  | start => rfl
  | write => cases hnil

omit [DecidableEq P] in
theorem Kept.start (hpin : pin.Consistent d) : Kept d pin [] pin := by
  refine ⟨hpin, fun k n => ?_, fun {row k n} h => ?_⟩
  · constructor
    · exact fun h => ⟨some k, h, rfl⟩
    · rintro ⟨_, h, _⟩
      exact h
  · obtain ⟨hrow, heq⟩ := h
    cases heq
    simp only [lastWrite, hrow, Option.map_some]

/-- What every state of a run keeps, with what its writes leave of the rowids and the index definitions. -/
theorem Run.kept (hpin : pin.Consistent d) (h : Run d Clear pin history t) :
    Kept d pin history t ∧ pin.nextRowid ≤ t.nextRowid ∧ pin.indexes.map (·.index) = t.indexes.map (·.index) := by
  induction h with
  | start => exact ⟨.start hpin, Nat.le_refl _, rfl⟩
  | @write history t t' actions part hrun hscan hexec hclear ih =>
    obtain ⟨hkept, hnext, hindexes⟩ := ih
    have hread : (part.view.read pin t).Consistent d ∧ (part.view.read pin t).nextRowid ≤ t.nextRowid ∧
        (part.view.read pin t).indexes.map (·.index) = t.indexes.map (·.index) := by
      cases part.view with
      | pin => exact ⟨hpin, hnext, hindexes⟩
      | working => exact ⟨hkept.consistent, Nat.le_refl _, rfl⟩
    have hw := wrote hread.1 hread.2.1 hscan hexec
    obtain ⟨hharm, hunclaimed, hmeets⟩ := hw.clear hkept.consistent hrun.first hclear
    have hconsistent := hw.applied.consistent hw.checked.distinct hharm hunclaimed (hw.separate hread.2.2)
      hkept.consistent hw.nextRowid hw.keyed
    exact ⟨⟨hconsistent, hw.stored hkept.stored, hw.alone hmeets hkept.alone⟩, hnext.trans hw.nextRowid,
      hindexes.trans hw.indexes.symm⟩

theorem Reached.consistent (ht₀ : t₀.Consistent d) (h : Reached d Clear t₀ t) : t.Consistent d := by
  induction h with
  | start => exact ht₀
  | statement _ hrun ih => exact (hrun.kept ih).1.consistent

end Run

/-! ## The databases of a session

A table's stores lie in the snapshot of its database under the table's name and its indexes' names. A write
whose statement names no database finds each of them by its name, in the session's temporary snapshot first.
Names are apart within a database and among what one session creates, but another session may give a table or
an index of the main database the name that a temporary one has here.
-/

/-- The databases that a session sees. -/
inductive Database where
  | main
  | temp
  | attached (name : String)
  deriving DecidableEq

/-- `Snapshot`: the row stores, each with its next rowid, by table name and the index stores by index name. -/
structure Snapshot (P K ρ : Type) where
  stores : String → Store K ρ × Nat
  indexStores : String → Store (P × K) Unit

/-- A table of a database with its indexes. -/
structure Relation (P K ρ : Type) where
  database : Database
  definition : TableDef K ρ
  indexes : List (Index P ρ)

namespace Relation

/-- The table's name, with its database. -/
def id (r : Relation P K ρ) : Database × String := (r.database, r.definition.name)

/-- The names of the indexes. -/
def indexNames (r : Relation P K ρ) : List String := r.indexes.map (·.name)

end Relation

/-- The tables that a session sees. Those of one database have their names, and their indexes' names, apart. -/
structure Catalog (P K ρ : Type) where
  relations : List (Relation P K ρ)
  nodup : ∀ r ∈ relations, r.indexNames.Nodup
  apart : relations.Pairwise fun r x => r.database = x.database →
    r.definition.name ≠ x.definition.name ∧ ∀ name ∈ r.indexNames, name ∉ x.indexNames

namespace Catalog

/-- The table of a database. -/
def named (cat : Catalog P K ρ) (database : Database) (name : String) : Option (Relation P K ρ) :=
  cat.relations.find? fun r => r.id == (database, name)

/-- The table that a statement names: one without a database is looked for among the temporary tables first. -/
def find (cat : Catalog P K ρ) (scope : Option Database) (name : String) : Option (Relation P K ρ) :=
  match scope with
  | some database => cat.named database name
  | none => (cat.named .temp name).or (cat.named .main name)

/-- `is_temp_table`. -/
def isTempTable (cat : Catalog P K ρ) (name : String) : Bool :=
  cat.relations.any fun r => r.id == (.temp, name)

/-- `has_index_store` of the temporary snapshot. -/
def isTempIndex (cat : Catalog P K ρ) (name : String) : Bool :=
  cat.relations.any fun r => r.database == .temp && decide (name ∈ r.indexNames)

/-- The database in which a write to the table finds its rows: `store_scoped` (`engine.rs:598-610`), or `store` (`exec_emit.rs:1798-1803`) when the table is `bare`. -/
def storeIn (cat : Catalog P K ρ) (r : Relation P K ρ) (bare : Bool) : Database :=
  if !bare then r.database else if cat.isTempTable r.definition.name then .temp else .main

/-- The database in which it finds an index: `index_store_scoped` (`engine.rs:633-645`), or `index_store` (`exec_emit.rs:1822-1827`). -/
def indexIn (cat : Catalog P K ρ) (r : Relation P K ρ) (bare : Bool) (name : String) : Database :=
  if !bare then r.database else if cat.isTempIndex name then .temp else .main

end Catalog

/-- The databases' snapshots. -/
abbrev Databases (P K ρ : Type) := Database → Snapshot P K ρ

namespace Databases

/-- The table in its own database. -/
def table (v : Databases P K ρ) (r : Relation P K ρ) : Table P K ρ where
  rows := ((v r.database).stores r.definition.name).1
  nextRowid := ((v r.database).stores r.definition.name).2
  indexes := r.indexes.map fun ix => ⟨ix, (v r.database).indexStores ix.name⟩

/-- The table as a write finds it. -/
def found (v : Databases P K ρ) (cat : Catalog P K ρ) (r : Relation P K ρ) (bare : Bool) : Table P K ρ where
  rows := ((v (cat.storeIn r bare)).stores r.definition.name).1
  nextRowid := ((v (cat.storeIn r bare)).stores r.definition.name).2
  indexes := r.indexes.map fun ix => ⟨ix, (v (cat.indexIn r bare ix.name)).indexStores ix.name⟩

/-- What a write has made of the table, in the stores in which it was found. -/
def land (v : Databases P K ρ) (cat : Catalog P K ρ) (r : Relation P K ρ) (bare : Bool) (t : Table P K ρ) :
    Databases P K ρ := fun database => {
  stores := fun name =>
    if database = cat.storeIn r bare ∧ name = r.definition.name then (t.rows, t.nextRowid)
    else (v database).stores name
  indexStores := fun name =>
    match t.indexes.find? fun s => s.index.name == name with
    | some s => if database = cat.indexIn r bare name then s.entries else (v database).indexStores name
    | none => (v database).indexStores name }

/-- The writes to a table among those of a statement. -/
def writesTo (r : Relation P K ρ) (history : List ((Database × String) × Step K ρ)) : List (Step K ρ) :=
  history.filterMap fun w => if w.1 = r.id then some w.2 else none

/-- A condition on a write: the tables, the state the statement began with, its writes, the state before the
write, the table, whether its stores are found by name alone, and what the write does. -/
abbrev Condition (P K ρ : Type) := Catalog P K ρ → Databases P K ρ → List ((Database × String) × Step K ρ) →
  Databases P K ρ → Relation P K ρ → Bool → Step K ρ → Prop

/-- A statement under way, in the databases of a session. ON CONFLICT finds the stores by name alone whatever
database the statement names, and is refused of an attached one (`dml.rs:259`); the child write of a referential
action names its database. -/
inductive Run (cat : Catalog P K ρ) (C : Condition P K ρ) (pin : Databases P K ρ) :
    List ((Database × String) × Step K ρ) → Databases P K ρ → Prop where
  | start : Run cat C pin [] pin
  | write {history : List ((Database × String) × Step K ρ)} {v : Databases P K ρ} {r : Relation P K ρ}
    {t : Table P K ρ} {actions : List (Action K ρ)} {bare : Bool} (scope : Option Database) (name : String)
    (part : Part K ρ) : Run cat C pin history v → cat.find scope name = some r →
    bare = (scope.isNone || part.kind == .onConflict) →
    (part.kind = .onConflict → ∀ name, r.database ≠ .attached name) →
    Scanned r.definition (part.view.read (pin.found cat r bare) (v.found cat r bare)) part.kind actions →
    part.exec r.definition (pin.found cat r bare) (v.found cat r bare) = .ok (t, actions) →
    C cat pin history v r bare ⟨part.view, actions⟩ →
    Run cat C pin ((r.id, ⟨part.view, actions⟩) :: history) (v.land cat r bare t)

/-- The states between a session's statements. -/
inductive Reached (cat : Catalog P K ρ) (C : Condition P K ρ) (v₀ : Databases P K ρ) : Databases P K ρ → Prop where
  | start : Reached cat C v₀ v₀
  | statement {pin v : Databases P K ρ} {history : List ((Database × String) × Step K ρ)} :
    Reached cat C v₀ pin → Run cat C pin history v → Reached cat C v₀ v

/-- No temporary table has the name of this one of the main database, and no temporary index that of one of its
indexes. -/
def Unshadowed (cat : Catalog P K ρ) (r : Relation P K ρ) : Prop :=
  r.database = .main → cat.isTempTable r.definition.name = false ∧ ∀ name ∈ r.indexNames, cat.isTempIndex name = false

/-- The condition: a write that finds the stores by name alone finds the table's own, and it meets the condition
on the writes to the table. -/
def Clear : Condition P K ρ := fun cat pin history v r bare step =>
  (bare = true → Unshadowed cat r) ∧ Dml.Clear (pin.table r) (writesTo r history) (v.table r) step

end Databases

section Catalog

variable {cat : Catalog P K ρ} {r x : Relation P K ρ} {scope : Option Database} {name : String} {bare : Bool}

omit [DecidableEq P] [DecidableEq K]

theorem Catalog.named_spec {database : Database} (h : cat.named database name = some r) :
    r ∈ cat.relations ∧ r.database = database := by
  have hid := List.find?_some h
  rw [beq_iff_eq] at hid
  exact ⟨List.mem_of_find?_eq_some h, congrArg Prod.fst hid⟩

theorem Catalog.mem_of_find (h : cat.find scope name = some r) : r ∈ cat.relations := by
  cases scope with
  | some database => exact (Catalog.named_spec h).1
  | none =>
    cases Option.or_eq_some_iff.1 h with
    | inl htemp => exact (Catalog.named_spec htemp).1
    | inr hmain => exact (Catalog.named_spec hmain.2).1

/-- A table found by name alone is a temporary one or one of the main database. -/
theorem Catalog.not_attached_of_find (h : cat.find none name = some r) (database : String) :
    r.database ≠ .attached database := by
  cases Option.or_eq_some_iff.1 h with
  | inl htemp => simp [(Catalog.named_spec htemp).2]
  | inr hmain => simp [(Catalog.named_spec hmain.2).2]

theorem Catalog.apart_of_ne (hr : r ∈ cat.relations) (hx : x ∈ cat.relations) (hne : r ≠ x)
    (hdatabase : r.database = x.database) :
    r.definition.name ≠ x.definition.name ∧ ∀ name ∈ r.indexNames, name ∉ x.indexNames := by
  have hsymm : Std.Symm fun r x : Relation P K ρ => r.database = x.database →
      r.definition.name ≠ x.definition.name ∧ ∀ name ∈ r.indexNames, name ∉ x.indexNames :=
    ⟨fun _ _ h heq => ⟨(h heq.symm).1.symm, fun name hx hr => (h heq.symm).2 name hr hx⟩⟩
  exact cat.apart.forall hr hx hne hdatabase

theorem Catalog.eq_of_id (hr : r ∈ cat.relations) (hx : x ∈ cat.relations) (hid : r.id = x.id) : r = x := by
  by_contra hne
  exact (Catalog.apart_of_ne hr hx hne (congrArg Prod.fst hid)).1 (congrArg Prod.snd hid)

/-- The stores of a table that is not shadowed are its own. -/
theorem Catalog.stores_own (hr : r ∈ cat.relations) (hknown : bare = true → ∀ name, r.database ≠ .attached name)
    (hclear : bare = true → Databases.Unshadowed cat r) :
    cat.storeIn r bare = r.database ∧ ∀ name ∈ r.indexNames, cat.indexIn r bare name = r.database := by
  cases bare with
  | false => exact ⟨rfl, fun _ _ => rfl⟩
  | true =>
    cases hdatabase : r.database with
    | main =>
      obtain ⟨htable, hindex⟩ := hclear rfl hdatabase
      exact ⟨by simp [Catalog.storeIn, htable], fun name hname => by simp [Catalog.indexIn, hindex name hname]⟩
    | temp =>
      have htable : cat.isTempTable r.definition.name = true :=
        List.any_eq_true.2 ⟨r, hr, by simp [Relation.id, hdatabase]⟩
      have hindex : ∀ name ∈ r.indexNames, cat.isTempIndex name = true := fun name hname =>
        List.any_eq_true.2 ⟨r, hr, by simp [hdatabase, hname]⟩
      exact ⟨by simp [Catalog.storeIn, htable], fun name hname => by simp [Catalog.indexIn, hindex name hname]⟩
    | attached name => exact absurd hdatabase (hknown rfl name)

end Catalog

namespace Databases

theorem find?_of_nodup {α : Type} (name : α → String) {xs : List α} (h : (xs.map name).Nodup) {x : α}
    (hx : x ∈ xs) : (xs.find? fun y => name y == name x) = some x := by
  induction xs with
  | nil => cases hx
  | cons y ys ih =>
    rw [List.map_cons, List.nodup_cons] at h
    cases hx with
    | head => simp
    | tail _ hx =>
      have hne : name y ≠ name x := fun heq => h.1 (heq ▸ List.mem_map_of_mem hx)
      rw [List.find?_cons_of_neg (by simpa using hne)]
      exact ih h.2 hx

section Land

variable {cat : Catalog P K ρ} {v : Databases P K ρ} {r x : Relation P K ρ} {t : Table P K ρ} {bare : Bool}
  (hown : cat.storeIn r bare = r.database ∧ ∀ name ∈ r.indexNames, cat.indexIn r bare name = r.database)

include hown

omit [DecidableEq P] [DecidableEq K]

theorem found_own : v.found cat r bare = v.table r := by
  have hindexes : r.indexes.map (fun ix => IndexStore.mk ix ((v (cat.indexIn r bare ix.name)).indexStores ix.name)) =
      r.indexes.map fun ix => ⟨ix, (v r.database).indexStores ix.name⟩ :=
    List.map_congr_left fun ix hix => by rw [hown.2 ix.name (List.mem_map_of_mem hix)]
  simp only [found, table, hown.1, hindexes]

theorem land_indexStores {name : String} {database : Database} (hindexes : t.indexes.map (·.index) = r.indexes)
    (hname : database = r.database → name ∉ r.indexNames) :
    (v.land cat r bare t database).indexStores name = (v database).indexStores name := by
  simp only [land]
  split
  · rename_i s hs
    have hmem : name ∈ r.indexNames := by
      have heq := List.find?_some hs
      rw [beq_iff_eq] at heq
      rw [Relation.indexNames, ← hindexes, List.map_map]
      exact List.mem_map.2 ⟨s, List.mem_of_find?_eq_some hs, heq⟩
    rw [if_neg fun h => hname (h.trans (hown.2 name hmem)) hmem]
  · rfl

/-- The table that was written is what the write has made of it. -/
theorem land_table (hnodup : r.indexNames.Nodup) (hindexes : t.indexes.map (·.index) = r.indexes) :
    (v.land cat r bare t).table r = t := by
  have hstores : r.indexes.map (fun ix => IndexStore.mk ix ((v.land cat r bare t r.database).indexStores ix.name)) =
      t.indexes := by
    rw [← hindexes, List.map_map]
    refine (List.map_congr_left fun s hs => ?_).trans (List.map_id _)
    have hfind : t.indexes.find? (fun s' => s'.index.name == s.index.name) = some s := by
      rw [Relation.indexNames, ← hindexes, List.map_map] at hnodup
      exact find?_of_nodup (fun s : IndexStore P K ρ => s.index.name) hnodup hs
    have hmem : s.index.name ∈ r.indexNames := by
      rw [Relation.indexNames, ← hindexes, List.map_map]
      exact List.mem_map_of_mem hs
    simp only [Function.comp_apply, land, hfind, hown.2 _ hmem, if_true, id]
  simp only [table, hstores]
  simp only [land, hown.1, true_and, if_true]

/-- The other tables are as they were. -/
theorem land_other (hr : r ∈ cat.relations) (hx : x ∈ cat.relations) (hne : r ≠ x)
    (hindexes : t.indexes.map (·.index) = r.indexes) : (v.land cat r bare t).table x = v.table x := by
  have hstores : x.indexes.map (fun ix => IndexStore.mk ix ((v.land cat r bare t x.database).indexStores ix.name)) =
      x.indexes.map fun ix => ⟨ix, (v x.database).indexStores ix.name⟩ := by
    refine List.map_congr_left fun ix hix => ?_
    rw [land_indexStores hown hindexes fun heq hmem =>
      (Catalog.apart_of_ne hr hx hne heq.symm).2 _ hmem (List.mem_map_of_mem hix)]
  have hrows : (v.land cat r bare t x.database).stores x.definition.name =
      (v x.database).stores x.definition.name := by
    simp only [land]
    rw [if_neg fun h => (Catalog.apart_of_ne hr hx hne (h.1.trans hown.1).symm).1 h.2.symm]
  simp only [table, hstores, hrows]

end Land

section Run

variable {cat : Catalog P K ρ} {v v₀ pin : Databases P K ρ} {r : Relation P K ρ}
  {history : List ((Database × String) × Step K ρ)}

/-- A run in the databases is, for each table, a run of the writes to it. -/
theorem Run.project (hr : r ∈ cat.relations) (h : Run cat Clear pin history v) :
    Dml.Run r.definition Dml.Clear (pin.table r) (writesTo r history) (v.table r) := by
  induction h with
  | start => exact .start
  | @write history v x t actions bare scope name part hrun hfind hbare hrefused hscan hexec hclear ih =>
    have hx := Catalog.mem_of_find hfind
    have hknown : bare = true → ∀ name, x.database ≠ .attached name := by
      intro htrue
      rw [hbare, Bool.or_eq_true, beq_iff_eq] at htrue
      cases htrue with
      | inl hnone =>
        rw [Option.isNone_iff_eq_none.1 hnone] at hfind
        exact Catalog.not_attached_of_find hfind
      | inr hconflict => exact hrefused hconflict
    have hown := Catalog.stores_own hx hknown hclear.1
    rw [found_own hown, found_own hown] at hscan hexec
    have hindexes : t.indexes.map (·.index) = x.indexes := by
      rw [Part.exec_indexes hexec, table, List.map_map]
      exact List.map_id _
    by_cases hid : x.id = r.id
    · cases Catalog.eq_of_id hx hr hid
      have hwrites : writesTo r ((r.id, ⟨part.view, actions⟩) :: history) = ⟨part.view, actions⟩ :: writesTo r history :=
        List.filterMap_cons_some (if_pos rfl)
      rw [land_table hown (cat.nodup r hx) hindexes, hwrites]
      exact ih.write part hscan hexec hclear.2
    · have hwrites : writesTo r ((x.id, ⟨part.view, actions⟩) :: history) = writesTo r history :=
        List.filterMap_cons_none (if_neg hid)
      rw [land_other hown hx hr (fun heq => hid (congrArg Relation.id heq)) hindexes, hwrites]
      exact ih

theorem Reached.project (hr : r ∈ cat.relations) (h : Reached cat Clear v₀ v) :
    Dml.Reached r.definition Dml.Clear (v₀.table r) (v.table r) := by
  induction h with
  | start => exact .start
  | statement _ hrun ih => exact ih.statement (hrun.project hr)

end Run

end Databases

/-- The index on `v`. -/
def accountsByV : Index Nat (Nat × Nat × Nat) where
  name := "accounts_v"
  unique := false
  keys row := .ok [row.2.1]
  probe row := .ok (some row.2.1)
  probe_keys h := nomatch h

/-- The table, keyed by `id`. -/
def accounts : TableDef Nat (Nat × Nat × Nat) where
  name := "accounts"
  pk := some fun row => .ok row.1
  rowid := id
  rowid_injective := Function.injective_id

/-- The table with these rows and entries. -/
def accountsWith (rows : Store Nat (Nat × Nat × Nat)) (entries : Store (Nat × Nat) Unit) :
    Table Nat Nat (Nat × Nat × Nat) :=
  ⟨rows, 0, [⟨accountsByV, entries⟩]⟩

/-- The row under key 1. -/
def rowsWith (row : Nat × Nat × Nat) (rows : Store Nat (Nat × Nat × Nat)) : Store Nat (Nat × Nat × Nat) :=
  rows.insert 1 row

/-- The entry of `v` for key 1, added. -/
def entriesWith (v : Nat) (entries : Store (Nat × Nat) Unit) : Store (Nat × Nat) Unit := entries.insert (v, 1) ()

/-- The account of key 1, inserted. -/
def opened : Table Nat Nat (Nat × Nat × Nat) := accountsWith (rowsWith (1, 10, 0) ∅) (entriesWith 10 ∅)

/-- Databases without rows. -/
def nothing : Databases Nat Nat (Nat × Nat × Nat) := fun _ => ⟨fun _ => (∅, 0), fun _ => ∅⟩

section Accounts

variable {C : Databases.Condition Nat Nat (Nat × Nat × Nat)} {pin v : Databases Nat Nat (Nat × Nat × Nat)}
  {history : List ((Database × String) × Step Nat (Nat × Nat × Nat))} {t p t' : Table Nat Nat (Nat × Nat × Nat)}
  {actions : List (Action Nat (Nat × Nat × Nat))}

end Accounts

end Jed.Dml
