import Jed.Dml.Consistent
import Jed.Lib.Results

/-!
# Phase 1

What a write plans, and what the checks of phase 1 ensure of it: rows placed under keys of their own, and
probes found only under vacated keys.
-/

namespace Jed.Dml

open LastWrite Results

variable {P K ρ : Type}

/-- What a statement plans: an INSERT only inserts, a DELETE only deletes, an UPDATE only updates, an upsert
does not delete. An UPDATE that assigns no key member keeps every key. -/
def Kind.plans : Kind → Action K ρ → Prop
  | .insert, .insert _ _ => True
  | .onConflict, .insert _ _ => True
  | .onConflict, .update _ _ _ _ => True
  | .update true, .update _ _ _ _ => True
  | .update false, .update oldKey newKey _ _ => newKey = oldKey
  | .delete, .delete _ _ => True
  | .merge, _ => True
  | _, _ => False

variable [DecidableEq P] [DecidableEq K]

/-- What the scan of phase 1 gives: each row once, as the view stores it; a new key encoded from the new
row. -/
structure Scanned (d : TableDef K ρ) (view : Table P K ρ) (kind : Kind) (actions : List (Action K ρ)) :
    Prop where
  olds : (oldKeys actions).Nodup
  found : ∀ a ∈ actions, ∀ {k : K} {o : ρ}, a.old? = some (k, o) → view.rows.lookup k = some o
  keyed : ∀ {oldKey newKey : K} {newRow oldRow : ρ}, Action.update oldKey newKey newRow oldRow ∈ actions →
    match d.pk with
    | some pk => pk newRow = .ok newKey
    | none => newKey = oldKey
  shape : ∀ a ∈ actions, kind.plans a

/-- What `resolve` says of the keys it gives the inserted rows. -/
structure Resolved (d : TableDef K ρ) (next after : Nat) (actions : List (Action K ρ)) : Prop where
  next_le : next ≤ after
  keyed : ∀ {k : K} {row : ρ}, Action.insert k row ∈ actions →
    match d.pk with
    | some pk => pk row = .ok k
    | none => ∃ n, next ≤ n ∧ n < after ∧ k = d.rowid n
  distinct : d.pk = none → ((inserted actions).map Prod.fst).Nodup

omit [DecidableEq K] in
theorem resolved {d : TableDef K ρ} {planned : List (Planned K ρ)} : ∀ {next after : Nat}
    {actions : List (Action K ρ)}, resolve d next planned = .ok (actions, after) →
    Resolved d next after actions := by
  induction planned with
  | nil =>
    intro next after actions h
    cases h
    exact ⟨Nat.le_refl _, fun h => (by cases h), fun _ => List.nodup_nil⟩
  | cons p planned ih =>
    intro next after actions h
    cases p with
    | update oldKey newKey newRow oldRow =>
      simp only [resolve, bind_eq_ok, Prod.exists, pure_eq_ok] at h
      obtain ⟨rest, n, hrest, heq⟩ := h
      cases heq
      have hr := ih hrest
      exact ⟨hr.next_le, fun h => hr.keyed ((List.mem_cons.1 h).resolve_left (fun h => by cases h)), hr.distinct⟩
    | delete key oldRow =>
      simp only [resolve, bind_eq_ok, Prod.exists, pure_eq_ok] at h
      obtain ⟨rest, n, hrest, heq⟩ := h
      cases heq
      have hr := ih hrest
      exact ⟨hr.next_le, fun h => hr.keyed ((List.mem_cons.1 h).resolve_left (fun h => by cases h)), hr.distinct⟩
    | insert row =>
      cases hpk : d.pk with
      | some pk =>
        simp only [resolve, hpk, bind_eq_ok, Prod.exists, pure_eq_ok] at h
        obtain ⟨key, hkey, rest, n, hrest, heq⟩ := h
        cases heq
        have hr := ih hrest
        refine ⟨hr.next_le, fun hmem => ?_, fun hnone => by rw [hpk] at hnone; cases hnone⟩
        cases hmem with
        | head =>
          rw [hpk]
          exact hkey
        | tail _ hmem => exact hr.keyed hmem
      | none =>
        simp only [resolve, hpk, bind_eq_ok, Prod.exists, pure_eq_ok] at h
        obtain ⟨rest, n, hrest, heq⟩ := h
        obtain ⟨rfl, rfl⟩ := Prod.mk.inj heq
        have hr := ih hrest
        have hlt := hr.next_le
        have hkeys : ∀ {k : K} {row : ρ}, Action.insert k row ∈ rest →
            ∃ m, next + 1 ≤ m ∧ m < n ∧ k = d.rowid m := by
          intro k row hmem
          have hk := hr.keyed hmem
          rw [hpk] at hk
          exact hk
        refine ⟨by omega, fun hmem => ?_, fun _ => ?_⟩
        · rw [hpk]
          cases hmem with
          | head => exact ⟨next, Nat.le_refl _, hlt, rfl⟩
          | tail _ hmem =>
            obtain ⟨m, hm, hmn, rfl⟩ := hkeys hmem
            exact ⟨m, by omega, hmn, rfl⟩
        · have hrest := hr.distinct hpk
          show ((d.rowid next, row) :: inserted rest |>.map Prod.fst).Nodup
          rw [List.map_cons, List.nodup_cons]
          refine ⟨fun hmem => ?_, hrest⟩
          obtain ⟨x, hx, heq⟩ := List.mem_map.1 hmem
          obtain ⟨a, ha, hsome⟩ := List.mem_filterMap.1 hx
          cases a with
          | insert k row =>
            cases hsome
            obtain ⟨m, hm, -, hk⟩ := hkeys ha
            rw [hk] at heq
            exact absurd (d.rowid_injective heq) (by omega)
          | update _ _ _ _ => cases hsome
          | delete _ _ => cases hsome

theorem checkPk_ok {d : TableDef K ρ} {store : Store K ρ} {vacated : List K} {ks : List K} :
    ∀ {seen : List K}, checkPk d store vacated seen ks = .ok () →
      ks.Nodup ∧ (∀ k ∈ ks, k ∉ seen) ∧ ∀ k ∈ ks, store.lookup k = none ∨ k ∈ vacated := by
  induction ks with
  | nil => exact fun _ => ⟨List.nodup_nil, fun _ h => (by cases h), fun _ h => (by cases h)⟩
  | cons k ks ih =>
    intro seen h
    simp only [checkPk] at h
    split at h
    case isTrue => cases h
    case isFalse hfree =>
      obtain ⟨hnodup, hseen, hstore⟩ := ih h
      simp only [Bool.or_eq_true, Bool.and_eq_true, Bool.not_eq_true', decide_eq_true_eq, decide_eq_false_iff_not,
        not_or, not_and, Decidable.not_not] at hfree
      refine ⟨List.nodup_cons.2 ⟨fun hmem => hseen k hmem (List.mem_cons_self ..), hnodup⟩, ?_, ?_⟩
      · intro x hx
        cases hx with
        | head => exact hfree.2
        | tail _ hx => exact fun hmem => hseen x hx (List.mem_cons_of_mem _ hmem)
      · intro x hx
        cases hx with
        | head =>
          cases hl : store.lookup k with
          | none => exact .inl rfl
          | some row => exact .inr (hfree.1 (by rw [hl]; rfl))
        | tail _ hx => exact hstore x hx

/-- The placed rows of a checked index have probes of their own, found only under vacated keys. -/
structure UniqueOk (s : IndexStore P K ρ) (vacated : List K) (rows : List ρ) : Prop where
  free : ∀ row ∈ rows, ∀ {p : P}, s.index.probe row = .ok (some p) → ∀ {k : K}, (p, k) ∈ s.entries → k ∈ vacated
  apart : rows.Pairwise fun r r' => ∀ p, s.index.probe r = .ok (some p) → s.index.probe r' ≠ .ok (some p)

theorem checkUnique_ok {d : TableDef K ρ} {s : IndexStore P K ρ} {vacated : List K} {rows : List ρ} :
    ∀ {seen : List P}, checkUnique d s vacated seen rows = .ok () →
      UniqueOk s vacated rows ∧ ∀ row ∈ rows, ∀ p ∈ seen, s.index.probe row ≠ .ok (some p) := by
  induction rows with
  | nil => exact fun _ => ⟨⟨fun _ h => (by cases h), .nil⟩, fun _ h => (by cases h)⟩
  | cons row rows ih =>
    intro seen h
    simp only [checkUnique, bind_eq_ok] at h
    obtain ⟨probe, hprobe, h⟩ := h
    cases probe with
    | none =>
      obtain ⟨hok, hseen⟩ := ih h
      have hno : ∀ p, s.index.probe row ≠ .ok (some p) := by
        intro p hp
        rw [hprobe] at hp
        cases hp
      refine ⟨⟨fun x hx p hp => ?_, .cons (fun _ _ p hp => absurd hp (hno p)) hok.apart⟩, fun x hx p hp => ?_⟩
      · cases hx with
        | head => exact absurd hp (hno p)
        | tail _ hx => exact hok.free x hx hp
      · cases hx with
        | head => exact hno p
        | tail _ hx => exact hseen x hx p hp
    | some q =>
      simp only at h
      split at h
      case isTrue => cases h
      case isFalse hfree =>
        obtain ⟨hok, hseen⟩ := ih h
        have hq : ∀ {p : P}, s.index.probe row = .ok (some p) → p = q := by
          intro p hp
          rw [hprobe] at hp
          cases hp
          rfl
        refine ⟨⟨fun x hx p hp k hmem => ?_, .cons (fun x hx p hp => ?_) hok.apart⟩, fun x hx p hp => ?_⟩
        · cases hx with
          | head =>
            rw [hq hp] at hmem
            by_contra hk
            exact hfree (.inr ⟨(q, k), Finmap.mem_keys.2 hmem, rfl, hk⟩)
          | tail _ hx => exact hok.free x hx hp hmem
        · rw [hq hp]
          exact hseen x hx q (List.mem_cons_self ..)
        · cases hx with
          | head => exact fun hrow => hfree (.inl (hq hrow ▸ hp))
          | tail _ hx => exact hseen x hx p (List.mem_cons_of_mem _ hp)

theorem checkUniques_ok {d : TableDef K ρ} {view : Table P K ρ} {vacated : List K} {rows : List ρ}
    (h : checkUniques d view vacated rows = .ok ()) {s : IndexStore P K ρ} (hs : s ∈ view.indexes)
    (hunique : s.index.unique = true) : UniqueOk s vacated rows := by
  unfold checkUniques at h
  generalize hl : view.indexes = l at h hs
  clear hl
  induction l with
  | nil => cases hs
  | cons x l ih =>
    rw [List.forM, bind_eq_ok] at h
    obtain ⟨_, hx, hrest⟩ := h
    cases hs with
    | head =>
      rw [if_pos hunique] at hx
      exact (checkUnique_ok hx).1
    | tail _ hs => exact ih hrest hs

omit [DecidableEq K] in
theorem mem_inserted {actions : List (Action K ρ)} {k : K} {row : ρ} :
    (k, row) ∈ inserted actions ↔ Action.insert k row ∈ actions := by
  rw [inserted, List.mem_filterMap]
  constructor
  · rintro ⟨a, ha, hsome⟩
    cases a with
    | insert key n => cases hsome; exact ha
    | update _ _ _ _ => cases hsome
    | delete _ _ => cases hsome
  · exact fun h => ⟨_, h, rfl⟩

omit [DecidableEq K] in
theorem new_cases {actions : List (Action K ρ)} {k : K} {row : ρ} (h : (k, row) ∈ placed actions) :
    Action.insert k row ∈ actions ∨ ∃ oldKey oldRow, Action.update oldKey k row oldRow ∈ actions := by
  obtain ⟨a, ha, hnew⟩ := mem_placed.1 h
  cases a with
  | insert key n => cases hnew; exact .inl ha
  | update oldKey newKey newRow oldRow => cases hnew; exact .inr ⟨oldKey, oldRow, ha⟩
  | delete key oldRow => cases hnew

omit [DecidableEq K] in
/-- When updates keep their keys, the placed rows have the old keys and those of the inserted rows. -/
theorem news_of_kept {actions : List (Action K ρ)} : (oldKeys actions).Nodup →
    (∀ {oldKey newKey : K} {newRow oldRow : ρ}, Action.update oldKey newKey newRow oldRow ∈ actions →
      newKey = oldKey) →
    ((inserted actions).map Prod.fst).Nodup → (∀ {k : K} {row : ρ}, Action.insert k row ∈ actions → k ∉ oldKeys actions) →
    (placedKeys actions).Nodup := by
  induction actions with
  | nil => exact fun _ _ _ _ => List.nodup_nil
  | cons a actions ih =>
    intro holds hkept hins hapart
    have hrest : (oldKeys actions).Nodup → ((inserted actions).map Prod.fst).Nodup →
        (placedKeys actions).Nodup := fun holds hins =>
      ih holds (fun h => hkept (List.mem_cons_of_mem _ h)) hins fun {k row} h hmem =>
        hapart (List.mem_cons_of_mem _ h) (by
          obtain ⟨b, hb, o, ho⟩ := mem_oldKeys.1 hmem
          exact mem_oldKeys.2 ⟨b, List.mem_cons_of_mem _ hb, o, ho⟩)
    cases a with
    | insert key row =>
      have hins' : (key :: (inserted actions).map Prod.fst).Nodup := hins
      rw [List.nodup_cons] at hins'
      show (key :: placedKeys actions).Nodup
      refine List.nodup_cons.2 ⟨fun hmem => ?_, hrest holds hins'.2⟩
      obtain ⟨x, hx, heq⟩ := List.mem_map.1 hmem
      obtain ⟨k, n⟩ := x
      change k = key at heq
      subst heq
      cases new_cases hx with
      | inl h => exact hins'.1 (List.mem_map.2 ⟨(k, n), mem_inserted.2 h, rfl⟩)
      | inr h =>
        obtain ⟨oldKey, oldRow, h⟩ := h
        have hk := hkept (List.mem_cons_of_mem _ h)
        exact hapart (List.mem_cons_self ..) (mem_oldKeys.2 ⟨_, List.mem_cons_of_mem _ h, oldRow, by rw [hk]; rfl⟩)
    | update oldKey newKey newRow oldRow =>
      have holds' : (oldKey :: oldKeys actions).Nodup := holds
      rw [List.nodup_cons] at holds'
      show (newKey :: placedKeys actions).Nodup
      refine List.nodup_cons.2 ⟨fun hmem => ?_, hrest holds'.2 hins⟩
      obtain ⟨x, hx, heq⟩ := List.mem_map.1 hmem
      obtain ⟨k, n⟩ := x
      change k = newKey at heq
      have hkeep : newKey = oldKey := hkept (List.mem_cons_self ..)
      rw [hkeep] at heq
      subst heq
      cases new_cases hx with
      | inl h => exact hapart (List.mem_cons_of_mem _ h) (mem_oldKeys.2 ⟨_, List.mem_cons_self .., oldRow, rfl⟩)
      | inr h =>
        obtain ⟨oldKey', oldRow', h⟩ := h
        have hk := hkept (List.mem_cons_of_mem _ h)
        exact holds'.1 (mem_oldKeys.2 ⟨_, h, oldRow', by rw [hk]; rfl⟩)
    | delete key oldRow =>
      have holds' : (key :: oldKeys actions).Nodup := holds
      rw [List.nodup_cons] at holds'
      exact hrest holds'.2 hins

/-- What phase 1 ensures of the actions. -/
structure Checked (d : TableDef K ρ) (view : Table P K ρ) (kind : Kind) (actions : List (Action K ρ)) :
    Prop where
  distinct : Distinct actions
  kept : ∀ {oldKey newKey : K} {newRow oldRow : ρ}, Action.update oldKey newKey newRow oldRow ∈ actions →
    rekeys actions oldKey newKey kind = false → newKey = oldKey
  unique : ∀ s ∈ view.indexes, s.index.unique = true → placed actions ≠ [] →
    ∃ vacated, UniqueOk s vacated ((placed actions).map Prod.snd) ∧ ∀ k ∈ vacated, k ∈ oldKeys actions


section Checked

variable {d : TableDef K ρ} {view : Table P K ρ} {kind : Kind} {actions : List (Action K ρ)} {next after : Nat}

omit [DecidableEq P] in
/-- A row that is not taken out keeps its key. -/
theorem Scanned.kept (h : Scanned d view kind actions) {oldKey newKey : K} {newRow oldRow : ρ}
    (ha : Action.update oldKey newKey newRow oldRow ∈ actions) (hstay : rekeys actions oldKey newKey kind = false) :
    newKey = oldKey := by
  have hshape := h.shape _ ha
  cases kind with
  | insert => exact hshape.elim
  | delete => exact hshape.elim
  | merge =>
    simp only [rekeys, bne_eq_false_iff_eq] at hstay
    exact hstay.symm
  | onConflict =>
    simp only [rekeys, rekeyed, List.any_eq_false] at hstay
    have hsame := hstay _ ha
    simp only [bne_iff_ne, ne_eq, Decidable.not_not] at hsame
    exact hsame.symm
  | update pkChanged =>
    cases pkChanged with
    | true => cases hstay
    | false => exact hshape

omit [DecidableEq P] in
/-- Rowids are new, so the inserted rows of a table without a key lie apart from the scanned ones. -/
theorem Scanned.rowids (h : Scanned d view kind actions) (hres : Resolved d next after actions)
    (hview : d.pk = none → ∀ {k : K} {row : ρ}, view.rows.lookup k = some row → ∃ n < next, k = d.rowid n)
    (hpk : d.pk = none) : (placedKeys actions).Nodup := by
  refine news_of_kept h.olds (fun ha => ?_) (hres.distinct hpk) fun {k row} ha hmem => ?_
  · have hk := h.keyed ha
    rw [hpk] at hk
    exact hk
  · obtain ⟨b, hb, o, ho⟩ := mem_oldKeys.1 hmem
    obtain ⟨m, hm, hkm⟩ := hview hpk (h.found b hb ho)
    have hk := hres.keyed ha
    rw [hpk] at hk
    obtain ⟨n, hn, -, hkn⟩ := hk
    have hmn := d.rowid_injective (hkm.symm.trans hkn)
    omega

omit [DecidableEq P] in
/-- An upsert that moves no row inserts under keys the view does not store. -/
theorem Scanned.fresh (h : Scanned d view kind actions)
    (hkept : ∀ {oldKey newKey : K} {newRow oldRow : ρ}, Action.update oldKey newKey newRow oldRow ∈ actions →
      newKey = oldKey)
    (hins : ((inserted actions).map Prod.fst).Nodup)
    (habsent : ∀ k ∈ (inserted actions).map Prod.fst, view.rows.lookup k = none) :
    (placedKeys actions).Nodup := by
  refine news_of_kept h.olds hkept hins fun {k row} ha hmem => ?_
  obtain ⟨b, hb, o, ho⟩ := mem_oldKeys.1 hmem
  have hnone := habsent k (List.mem_map.2 ⟨(k, row), mem_inserted.2 ha, rfl⟩)
  rw [h.found b hb ho] at hnone
  cases hnone

theorem uniques_ok {vacated : List K} (h : checkUniques d view vacated ((placed actions).map (·.2)) = .ok ())
    (hvacated : ∀ k ∈ vacated, k ∈ oldKeys actions) :
    ∀ s ∈ view.indexes, s.index.unique = true → placed actions ≠ [] →
      ∃ vacated, UniqueOk s vacated ((placed actions).map Prod.snd) ∧ ∀ k ∈ vacated, k ∈ oldKeys actions :=
  fun _ hs hunique _ => ⟨vacated, checkUniques_ok h hs hunique, hvacated⟩

theorem checked (hscan : Scanned d view kind actions) (hres : Resolved d next after actions)
    (hview : d.pk = none → ∀ {k : K} {row : ρ}, view.rows.lookup k = some row → ∃ n < next, k = d.rowid n)
    (h : validate d view actions kind = .ok ()) : Checked d view kind actions := by
  have hself : ∀ k ∈ oldKeys actions, k ∈ oldKeys actions := fun _ h => h
  have hnil : ∀ k ∈ ([] : List K), k ∈ oldKeys actions := fun _ h => (by cases h)
  cases kind with
  | insert =>
    obtain ⟨hpk, huniques⟩ := check_then_ok h
    refine ⟨⟨hscan.olds, ?_⟩, hscan.kept, uniques_ok huniques hnil⟩
    cases hd : d.pk with
    | none => exact hscan.rowids hres hview hd
    | some pk => exact (checkPk_ok (hpk (by rw [hd]; rfl))).1
  | delete =>
    have hnone : placed actions = [] := by
      refine List.filterMap_eq_nil_iff.2 fun a ha => ?_
      cases a with
      | insert _ _ => exact (hscan.shape _ ha).elim
      | update _ _ _ _ => exact (hscan.shape _ ha).elim
      | delete _ _ => rfl
    refine ⟨⟨hscan.olds, by rw [hnone]; exact List.nodup_nil⟩, hscan.kept, fun _ _ _ hne => absurd hnone hne⟩
  | update pkChanged =>
    obtain ⟨hpk, huniques⟩ := check_then_ok h
    refine ⟨⟨hscan.olds, ?_⟩, hscan.kept, uniques_ok huniques hself⟩
    cases pkChanged with
    | true => exact (checkPk_ok (hpk rfl)).1
    | false =>
      have hnone : inserted actions = [] := by
        refine List.filterMap_eq_nil_iff.2 fun a ha => ?_
        cases a with
        | insert _ _ => exact (hscan.shape _ ha).elim
        | update _ _ _ _ => rfl
        | delete _ _ => rfl
      exact hscan.fresh (fun ha => hscan.kept ha rfl) (by rw [hnone]; exact List.nodup_nil)
        fun k hk => by rw [hnone] at hk; cases hk
  | onConflict =>
    cases hrekeyed : rekeyed actions with
    | true =>
      simp only [validate, hrekeyed, Bool.or_true, Bool.and_true, if_true] at h
      obtain ⟨hpk, huniques⟩ := check_then_ok h
      refine ⟨⟨hscan.olds, ?_⟩, hscan.kept, uniques_ok huniques hself⟩
      cases hd : d.pk with
      | none => exact hscan.rowids hres hview hd
      | some pk => exact (checkPk_ok (hpk (by rw [hd]; rfl))).1
    | false =>
      simp only [validate, hrekeyed, Bool.or_false, Bool.false_eq_true, if_false] at h
      obtain ⟨hpk, huniques⟩ := check_then_ok h
      refine ⟨⟨hscan.olds, ?_⟩, hscan.kept, uniques_ok huniques hself⟩
      cases hd : d.pk with
      | none => exact hscan.rowids hres hview hd
      | some pk =>
        have hkept : ∀ {oldKey newKey : K} {newRow oldRow : ρ},
            Action.update oldKey newKey newRow oldRow ∈ actions → newKey = oldKey :=
          fun ha => hscan.kept ha hrekeyed
        cases hins : inserted actions with
        | nil => exact hscan.fresh hkept (by rw [hins]; exact List.nodup_nil) fun k hk => by rw [hins] at hk; cases hk
        | cons x xs =>
          obtain ⟨hnodup, -, hfree⟩ := checkPk_ok (hpk (by rw [hd, hins]; rfl))
          exact hscan.fresh hkept hnodup fun k hk => (hfree k hk).resolve_right (fun h => (by cases h))
  | merge =>
    obtain ⟨hpk, huniques⟩ := check_then_ok h
    refine ⟨⟨hscan.olds, ?_⟩, hscan.kept, uniques_ok huniques hself⟩
    cases hd : d.pk with
    | none => exact hscan.rowids hres hview hd
    | some pk => exact (checkPk_ok (hpk (by rw [hd]; rfl))).1

end Checked

end Jed.Dml
