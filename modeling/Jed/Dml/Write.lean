import Jed.Dml.Validate

/-!
# Phase 2

A write that succeeds has, whatever the order its statement writes in, the effect `Applied` says.
-/

namespace Jed.Dml

open LastWrite Results

variable {P K ρ : Type} [DecidableEq K]

section Rows

variable {kind : Kind} {actions : List (Action K ρ)}

theorem placeOf (kind : Kind) (actions : List (Action K ρ)) {a : Action K ρ} {k : K} {n : ρ}
    (h : a.new? = some (k, n)) :
    place kind actions a = some (.insert k n) ∨
      ∃ oldKey oldRow, a = .update oldKey k n oldRow ∧ rekeys actions oldKey k kind = false ∧
        place kind actions a = some (.replace k n) := by
  cases a with
  | insert key row =>
    cases h
    exact .inl rfl
  | update oldKey newKey newRow oldRow =>
    cases h
    cases hr : rekeys actions oldKey k kind with
    | true => exact .inl (by simp only [place, hr, if_true])
    | false => exact .inr ⟨oldKey, oldRow, rfl, hr, by simp only [place, hr, Bool.false_eq_true, if_false]⟩
  | delete key oldRow => cases h

/-- The row writes that place are those of the placed rows. -/
theorem placeKeys (kind : Kind) (actions : List (Action K ρ)) :
    (actions.filterMap (place kind actions)).map Write.key = placedKeys actions := by
  suffices h : ∀ l : List (Action K ρ), (l.filterMap (place kind actions)).map Write.key = placedKeys l from h actions
  intro l
  induction l with
  | nil => rfl
  | cons a l ih =>
    cases a with
    | insert key row => exact congrArg (key :: ·) ih
    | update oldKey newKey newRow oldRow =>
      have hkey : (if rekeys actions oldKey newKey kind then Write.insert newKey newRow
          else .replace newKey newRow).key = newKey := by
        split <;> rfl
      exact congrArg₂ (· :: ·) hkey ih
    | delete key oldRow => exact ih

theorem vacate_spec {a : Action K ρ} {w : Write K ρ} (h : vacate kind actions a = some w) :
    ∃ k o, a.old? = some (k, o) ∧ w = .remove k := by
  cases a with
  | insert key row => cases h
  | update oldKey newKey newRow oldRow =>
    simp only [vacate] at h
    split at h
    · cases h
      exact ⟨oldKey, oldRow, rfl, rfl⟩
    · cases h
  | delete key oldRow =>
    cases h
    exact ⟨key, oldRow, rfl, rfl⟩

/-- A row that is taken away leaves its key, or is written again under it. -/
theorem vacate_or_stays (kind : Kind) (actions : List (Action K ρ)) {a : Action K ρ} {k : K} {o : ρ}
    (h : a.old? = some (k, o)) :
    vacate kind actions a = some (.remove k) ∨
      ∃ newKey newRow, a = .update k newKey newRow o ∧ rekeys actions k newKey kind = false := by
  cases a with
  | insert key row => cases h
  | update oldKey newKey newRow oldRow =>
    cases h
    cases hr : rekeys actions k newKey kind with
    | true => exact .inl (by simp only [vacate, hr, if_true])
    | false => exact .inr ⟨newKey, newRow, rfl, hr⟩
  | delete key oldRow =>
    cases h
    exact .inl rfl

end Rows

section Rows

variable {d : TableDef K ρ} {view : Table P K ρ} {kind : Kind} {actions : List (Action K ρ)} {fault : Fault}
  {rows rows' : Store K ρ}

theorem rows_put (hc : Checked d view kind actions) (h : run fault rows (rowWrites kind actions) = .ok rows')
    {a : Action K ρ} (ha : a ∈ actions) {k : K} {n : ρ} (hnew : a.new? = some (k, n)) :
    rows'.lookup k = some n := by
  have hnodup : ((actions.filterMap (place kind actions)).map Write.key).Nodup := by
    rw [placeKeys]
    exact hc.distinct.news
  have hput : ∃ w ∈ actions.filterMap (place kind actions), w.key = k ∧ w.value = some n := by
    cases placeOf kind actions hnew with
    | inl hp => exact ⟨_, List.mem_filterMap.2 ⟨a, ha, hp⟩, rfl, rfl⟩
    | inr hp =>
      obtain ⟨_, _, _, _, hp⟩ := hp
      exact ⟨_, List.mem_filterMap.2 ⟨a, ha, hp⟩, rfl, rfl⟩
  obtain ⟨w, hw, rfl, hv⟩ := hput
  rw [lookup_run h, rowWrites, last_puts hnodup hw, hv]
  rfl

theorem rows_gone (hc : Checked d view kind actions) (h : run fault rows (rowWrites kind actions) = .ok rows')
    {k : K} (hold : k ∈ oldKeys actions) (hnew : k ∉ placedKeys actions) : rows'.lookup k = none := by
  obtain ⟨a, ha, o, ho⟩ := mem_oldKeys.1 hold
  have hvacate : Write.remove k ∈ actions.filterMap (vacate kind actions) := by
    cases vacate_or_stays kind actions ho with
    | inl hv => exact List.mem_filterMap.2 ⟨a, ha, hv⟩
    | inr hstay =>
      obtain ⟨newKey, newRow, rfl, hr⟩ := hstay
      have hk := hc.kept ha hr
      exact absurd (mem_placedKeys.2 ⟨_, ha, newRow, by rw [hk]; rfl⟩) hnew
  have hplaces : last (actions.filterMap (place kind actions)) k = none := by
    rw [last_eq_none]
    intro w hw heq
    rw [← placeKeys kind] at hnew
    exact hnew (List.mem_map.2 ⟨w, hw, heq⟩)
  rw [lookup_run h, rowWrites, last_append, hplaces]
  cases hlast : last (actions.filterMap (vacate kind actions)) k with
  | none => exact absurd rfl (last_eq_none.1 hlast _ hvacate)
  | some v =>
    obtain ⟨w, hw, -, hv⟩ := mem_of_last hlast
    obtain ⟨b, -, hb⟩ := List.mem_filterMap.1 hw
    obtain ⟨_, _, -, rfl⟩ := vacate_spec hb
    rw [← hv]
    rfl

theorem rows_kept (h : run fault rows (rowWrites kind actions) = .ok rows') {k : K} (hold : k ∉ oldKeys actions)
    (hnew : k ∉ placedKeys actions) : rows'.lookup k = rows.lookup k := by
  have hnone : last (rowWrites kind actions) k = none := by
    rw [last_eq_none]
    intro w hw heq
    cases List.mem_append.1 hw with
    | inl hw =>
      obtain ⟨a, ha, hv⟩ := List.mem_filterMap.1 hw
      obtain ⟨k', o, ho, rfl⟩ := vacate_spec hv
      exact hold (mem_oldKeys.2 ⟨a, ha, o, by rw [← heq]; exact ho⟩)
    | inr hw =>
      rw [← placeKeys kind] at hnew
      exact hnew (List.mem_map.2 ⟨w, hw, heq⟩)
  rw [lookup_run h, hnone]
  rfl

theorem rows_fresh (hc : Checked d view kind actions) (h : run fault rows (rowWrites kind actions) = .ok rows')
    {k : K} (hnew : k ∈ placedKeys actions) (hold : k ∉ oldKeys actions) : rows.lookup k = none := by
  obtain ⟨a, ha, n, han⟩ := mem_placedKeys.1 hnew
  have hnodup : ((actions.filterMap (place kind actions)).map Write.key).Nodup := by
    rw [placeKeys]
    exact hc.distinct.news
  cases placeOf kind actions han with
  | inl hp =>
    have habsent := absent_of_run h hnodup (List.mem_filterMap.2 ⟨a, ha, hp⟩) rfl
    cases habsent with
    | inl hnone => exact hnone
    | inr hdel =>
      obtain ⟨w, hw, heq⟩ := hdel
      obtain ⟨b, hb, hv⟩ := List.mem_filterMap.1 hw
      obtain ⟨k', o, ho, rfl⟩ := vacate_spec hv
      have hk : k' = k := heq
      exact absurd (mem_oldKeys.2 ⟨b, hb, o, by rw [← hk]; exact ho⟩) hold
  | inr hp =>
    obtain ⟨oldKey, oldRow, rfl, hr, -⟩ := hp
    have hk := hc.kept ha hr
    exact absurd (mem_oldKeys.2 ⟨_, ha, oldRow, by rw [hk]; rfl⟩) hold

end Rows

section Entries

variable [DecidableEq P] {ix : Index P ρ} {a : Action K ρ} {p : P} {k : K}

omit [DecidableEq K] [DecidableEq P] in
theorem entryKeys_ok {r : Option (K × ρ)} {eks : List (P × K)} (h : entryKeys ix r = .ok eks) :
    (p, k) ∈ eks ↔ ix.keysOf? k r p := by
  cases r with
  | none =>
    cases h
    exact ⟨fun h => (by cases h), fun h => h.elim⟩
  | some x =>
    obtain ⟨k', row⟩ := x
    simp only [entryKeys, bind_eq_ok, pure_eq_ok] at h
    obtain ⟨keys, hkeys, rfl⟩ := h
    simp only [Index.keysOf?, Index.keysOf, hkeys, List.mem_map, Prod.mk.injEq]
    constructor
    · rintro ⟨q, hq, hp, hk⟩
      exact ⟨hk, hp ▸ hq⟩
    · rintro ⟨hk, hp⟩
      exact ⟨p, hp, rfl, hk⟩

theorem entryMoves_ok {m : List (Write (P × K) Unit) × List (Write (P × K) Unit)}
    (h : entryMoves ix a = .ok m) :
    (∀ w, w ∈ m.1 ↔ ∃ p k, Removes ix a p k ∧ w = .remove (p, k)) ∧
      ∀ w, w ∈ m.2 ↔ ∃ p k, Adds ix a p k ∧ w = .insert (p, k) () := by
  simp only [entryMoves, bind_eq_ok, pure_eq_ok] at h
  obtain ⟨olds, holds, news, hnews, rfl⟩ := h
  constructor
  · intro w
    simp only [List.mem_map, List.mem_filter, Prod.exists, decide_eq_true_eq, Removes, entryKeys_ok holds,
      entryKeys_ok hnews, @eq_comm _ w]
  · intro w
    simp only [List.mem_map, List.mem_filter, Prod.exists, decide_eq_true_eq, Adds, entryKeys_ok holds,
      entryKeys_ok hnews, @eq_comm _ w]

/-- The entry writes of an index: the removals and insertions of the actions, no removal after an insertion
of its entry. -/
structure EntryWrites (actions : List (Action K ρ)) (ix : Index P ρ) (ws : List (Write (P × K) Unit)) :
    Prop where
  sound : ∀ w ∈ ws, ∃ a ∈ actions, ∃ p k, Removes ix a p k ∧ w = .remove (p, k) ∨
    Adds ix a p k ∧ w = .insert (p, k) ()
  removes : ∀ a ∈ actions, ∀ {p : P} {k : K}, Removes ix a p k → Write.remove (p, k) ∈ ws
  adds : ∀ a ∈ actions, ∀ {p : P} {k : K}, Adds ix a p k → Write.insert (p, k) () ∈ ws
  order : PutsLast ws

variable {kind : Kind} {actions : List (Action K ρ)}

omit [DecidableEq P] in
/-- When entries move action by action, no action takes away an entry that another adds. -/
theorem Checked.apart {d : TableDef K ρ} {view : Table P K ρ} (hc : Checked d view kind actions)
    (hshape : ∀ a ∈ actions, kind.plans a) (hinter : interleaved actions kind = true) {a b : Action K ρ}
    (ha : a ∈ actions) (hb : b ∈ actions) (hadd : Adds ix a p k) (hrem : Removes ix b p k) : False := by
  have hstay : ∀ {oldKey newKey : K} {newRow oldRow : ρ}, b = .update oldKey newKey newRow oldRow →
      newKey = oldKey := by
    intro oldKey newKey newRow oldRow heq
    subst heq
    refine hc.kept hb ?_
    cases kind with
    | update pkChanged => simpa only [interleaved, Bool.not_eq_true', rekeys] using hinter
    | onConflict => simpa only [interleaved, Bool.not_eq_true', rekeys] using hinter
    | insert => cases hinter
    | delete => cases hinter
    | merge => cases hinter
  cases hbo : b.old? with
  | none =>
    have h := hrem.1
    rw [hbo] at h
    exact h
  | some x =>
    obtain ⟨k', o⟩ := x
    have hk := hrem.1
    rw [hbo] at hk
    obtain ⟨rfl, -⟩ := hk
    cases b with
    | insert _ _ => cases hbo
    | delete _ _ =>
      have h := hshape _ hb
      cases kind with
      | update pkChanged => cases pkChanged <;> exact h
      | onConflict => exact h
      | insert => exact h
      | delete => cases hinter
      | merge => cases hinter
    | update oldKey newKey newRow oldRow =>
      cases hbo
      have hnew : newKey = k' := hstay rfl
      cases han : a.new? with
      | none =>
        have h := hadd.1
        rw [han] at h
        exact h
      | some y =>
        obtain ⟨k'', n⟩ := y
        have hk'' := hadd.1
        rw [han] at hk''
        obtain ⟨rfl, -⟩ := hk''
        have hab := hc.distinct.new_inj ha hb han (show (Action.update k'' newKey newRow o).new? = some (k'', newRow) by
          rw [hnew]; rfl)
        exact hrem.2 (by rw [← hab]; exact hadd.1)

theorem entryWrites_ok {d : TableDef K ρ} {view : Table P K ρ} (hc : Checked d view kind actions)
    (hshape : ∀ a ∈ actions, kind.plans a) {ws : List (Write (P × K) Unit)}
    (h : entryWrites kind actions ix = .ok ws) : EntryWrites actions ix ws := by
  simp only [entryWrites, bind_eq_ok] at h
  obtain ⟨moves, hmoves, h⟩ := h
  obtain ⟨hback, hforth⟩ := mem_of_forall₂ (forall₂_of_mapM hmoves)
  have hmem : ∀ w, w ∈ ws ↔ ∃ m ∈ moves, w ∈ m.1 ∨ w ∈ m.2 := by
    intro w
    split at h
    · cases pure_eq_ok.1 h
      simp only [List.mem_flatMap, List.mem_append]
    · cases pure_eq_ok.1 h
      simp only [List.mem_flatMap, List.mem_append, and_or_left, exists_or]
  have hsound : ∀ w ∈ ws, ∃ a ∈ actions, ∃ p k, Removes ix a p k ∧ w = .remove (p, k) ∨
      Adds ix a p k ∧ w = .insert (p, k) () := by
    intro w hw
    obtain ⟨m, hm, hw⟩ := (hmem w).1 hw
    obtain ⟨a, ha, ham⟩ := hback m hm
    obtain ⟨hdels, hputs⟩ := entryMoves_ok ham
    cases hw with
    | inl hw =>
      obtain ⟨p, k, hw⟩ := (hdels w).1 hw
      exact ⟨a, ha, p, k, .inl hw⟩
    | inr hw =>
      obtain ⟨p, k, hw⟩ := (hputs w).1 hw
      exact ⟨a, ha, p, k, .inr hw⟩
  refine ⟨hsound, fun a ha {p k} hrem => ?_, fun a ha {p k} hadd => ?_, ?_⟩
  · obtain ⟨m, hm, ham⟩ := hforth a ha
    exact (hmem _).2 ⟨m, hm, .inl (((entryMoves_ok ham).1 _).2 ⟨p, k, hrem, rfl⟩)⟩
  · obtain ⟨m, hm, ham⟩ := hforth a ha
    exact (hmem _).2 ⟨m, hm, .inr (((entryMoves_ok ham).2 _).2 ⟨p, k, hadd, rfl⟩)⟩
  · split at h
    case isTrue hinter =>
      refine putsLast_of_disjoint fun w hw w' hw' hput hdel heq => ?_
      obtain ⟨a, ha, p, k, hwa⟩ := hsound w hw
      obtain ⟨b, hb, q, l, hwb⟩ := hsound w' hw'
      cases hwa with
      | inl hwa => rw [hwa.2] at hput; cases hput
      | inr hwa =>
        cases hwb with
        | inr hwb => rw [hwb.2] at hdel; cases hdel
        | inl hwb =>
          rw [hwa.2, hwb.2] at heq
          cases (show (p, k) = (q, l) from heq)
          exact hc.apart hshape hinter ha hb hwa.1 hwb.1
    case isFalse =>
      cases pure_eq_ok.1 h
      refine putsLast_append (fun w hw => ?_) fun w hw => ?_
      · obtain ⟨m, hm, hw⟩ := List.mem_flatMap.1 hw
        obtain ⟨a, -, ham⟩ := hback m hm
        obtain ⟨p, k, -, rfl⟩ := ((entryMoves_ok ham).1 w).1 hw
        rfl
      · obtain ⟨m, hm, hw⟩ := List.mem_flatMap.1 hw
        obtain ⟨a, -, ham⟩ := hback m hm
        obtain ⟨p, k, -, rfl⟩ := ((entryMoves_ok ham).2 w).1 hw
        rfl

/-- What the index holds after its writes. -/
theorem EntryWrites.entries {ws : List (Write (P × K) Unit)} (hws : EntryWrites actions ix ws) {fault : Fault}
    {s s' : Store (P × K) Unit} (h : run fault s ws = .ok s') (p : P) (k : K) :
    (p, k) ∈ s' ↔ (∃ a ∈ actions, Adds ix a p k) ∨ (p, k) ∈ s ∧ ∀ a ∈ actions, ¬ Removes ix a p k := by
  rw [present_run h hws.order]
  have hputs : (∃ w ∈ ws, w.key = (p, k) ∧ w.isPut = true) ↔ ∃ a ∈ actions, Adds ix a p k := by
    constructor
    · rintro ⟨w, hw, hkey, hput⟩
      obtain ⟨a, ha, q, l, hwa⟩ := hws.sound w hw
      cases hwa with
      | inl hwa => rw [hwa.2] at hput; cases hput
      | inr hwa =>
        rw [hwa.2] at hkey
        cases (show (q, l) = (p, k) from hkey)
        exact ⟨a, ha, hwa.1⟩
    · rintro ⟨a, ha, hadd⟩
      exact ⟨_, hws.adds a ha hadd, rfl, rfl⟩
  have hdels : (∀ w ∈ ws, w.key = (p, k) → w.isPut = true) ↔ ∀ a ∈ actions, ¬ Removes ix a p k := by
    constructor
    · intro hall a ha hrem
      have hput := hall _ (hws.removes a ha hrem) rfl
      cases hput
    · intro hnone w hw hkey
      obtain ⟨a, ha, q, l, hwa⟩ := hws.sound w hw
      cases hwa with
      | inl hwa =>
        rw [hwa.2] at hkey
        cases (show (q, l) = (p, k) from hkey)
        exact absurd hwa.1 (hnone a ha)
      | inr hwa => rw [hwa.2]; rfl
  rw [hputs, hdels]

end Entries

theorem write_indexes [DecidableEq P] {d : TableDef K ρ} {t t' : Table P K ρ} {kind : Kind} {actions : List (Action K ρ)}
    {next : Nat} (h : write d kind actions next t = .ok t') :
    t'.indexes.map (·.index) = t.indexes.map (·.index) := by
  simp only [write, bind_eq_ok, pure_eq_ok] at h
  obtain ⟨_, -, indexes, hindexes, rfl⟩ := h
  have hstores := forall₂_of_mapM hindexes
  show indexes.map _ = _
  clear hindexes
  generalize t.indexes = stores at hstores
  induction hstores with
  | nil => rfl
  | cons hss' _ ih =>
    simp only [bind_eq_ok, pure_eq_ok] at hss'
    obtain ⟨ws, hws, entries, hrun, rfl⟩ := hss'
    exact congrArg (_ :: ·) ih

/-- A write that succeeds. -/
theorem applied [DecidableEq P] {d : TableDef K ρ} {view t t' : Table P K ρ} {kind : Kind} {actions : List (Action K ρ)}
    {next : Nat} (hc : Checked d view kind actions) (hshape : ∀ a ∈ actions, kind.plans a)
    (h : write d kind actions next t = .ok t') :
    Applied actions t t' ∧ t'.nextRowid = next ∧ t'.indexes.map (·.index) = t.indexes.map (·.index) := by
  have hsame := write_indexes h
  simp only [write, bind_eq_ok, pure_eq_ok] at h
  obtain ⟨rows, hrows, indexes, hindexes, rfl⟩ := h
  refine ⟨⟨fun a ha {k n} hnew => rows_put hc hrows ha hnew, fun {k} => rows_gone hc hrows, fun {k} => rows_kept hrows,
    fun {k} => rows_fresh hc hrows, fun s' hs' => ?_⟩, rfl, hsame⟩
  obtain ⟨s, hs, hss'⟩ := (mem_of_forall₂ (forall₂_of_mapM hindexes)).1 s' hs'
  simp only [bind_eq_ok, pure_eq_ok] at hss'
  obtain ⟨ws, hws, entries, hrun, rfl⟩ := hss'
  exact ⟨s, hs, rfl, (entryWrites_ok hc hshape hws).entries hrun⟩

end Jed.Dml
