import Jed.Dml.Table

/-!
# Consistent tables

What holds of a table between statements, and what a successful write does to it, said once for all
statements: which rows are stored, and which entries each index holds.
-/

namespace Jed.Dml

open LastWrite

variable {P K ρ : Type}

/-- The index keys of a stored row. -/
def Index.keysOf (ix : Index P ρ) (row : ρ) : List P :=
  match ix.keys row with
  | .ok keys => keys
  | .error _ => []

/-- The keys a row, if there is one, has in an index. -/
def Index.keysOf? (ix : Index P ρ) (k : K) : Option (K × ρ) → P → Prop
  | none, _ => False
  | some (k', row), p => k' = k ∧ p ∈ ix.keysOf row

/-- No two actions take away, or place, a row under one key. -/
structure Distinct (actions : List (Action K ρ)) : Prop where
  olds : (oldKeys actions).Nodup
  news : ((placed actions).map Prod.fst).Nodup

/-- Elements with one image under a function whose images are distinct are one. -/
theorem eq_of_filterMap_nodup {α β : Type} {f : α → Option β} : ∀ {l : List α}, (l.filterMap f).Nodup →
    ∀ {a b : α} {x : β}, a ∈ l → b ∈ l → f a = some x → f b = some x → a = b := by
  intro l
  induction l with
  | nil => exact fun _ _ _ _ ha => by cases ha
  | cons c l ih =>
    intro h a b x ha hb hfa hfb
    cases hc : f c with
    | none =>
      rw [List.filterMap_cons_none hc] at h
      have hne : ∀ {y : α}, f y = some x → y ∈ c :: l → y ∈ l := by
        intro y hy hmem
        cases hmem with
        | head => rw [hc] at hy; cases hy
        | tail _ hmem => exact hmem
      exact ih h (hne hfa ha) (hne hfb hb) hfa hfb
    | some y =>
      rw [List.filterMap_cons_some hc, List.nodup_cons] at h
      have hout : ∀ {z : α}, z ∈ l → f z = some y → False :=
        fun hz hfz => h.1 (List.mem_filterMap.2 ⟨_, hz, hfz⟩)
      cases ha with
      | head =>
        rw [hc] at hfa
        cases hfa
        cases hb with
        | head => rfl
        | tail _ hb => exact (hout hb hfb).elim
      | tail _ ha =>
        cases hb with
        | head =>
          rw [hc] at hfb
          cases hfb
          exact (hout ha hfa).elim
        | tail _ hb => exact ih h.2 ha hb hfa hfb

variable {actions : List (Action K ρ)} {a b : Action K ρ}

theorem mem_oldKeys {k : K} : k ∈ oldKeys actions ↔ ∃ a ∈ actions, ∃ o, a.old? = some (k, o) := by
  simp [oldKeys, List.mem_filterMap]

theorem mem_placed {k : K} {row : ρ} : (k, row) ∈ placed actions ↔ ∃ a ∈ actions, a.new? = some (k, row) := by
  simp [placed, List.mem_filterMap]

/-- The keys under which rows are placed. -/
def placedKeys (actions : List (Action K ρ)) : List K := (placed actions).map Prod.fst

theorem mem_placedKeys {k : K} : k ∈ placedKeys actions ↔ ∃ a ∈ actions, ∃ n, a.new? = some (k, n) := by
  simp only [placedKeys, List.mem_map, Prod.exists, exists_and_right, exists_eq_right, mem_placed]
  constructor
  · rintro ⟨n, a, ha, h⟩
    exact ⟨a, ha, n, h⟩
  · rintro ⟨a, ha, n, h⟩
    exact ⟨n, a, ha, h⟩

theorem Distinct.old_inj (h : Distinct actions) {k : K} {o o' : ρ} (ha : a ∈ actions) (hb : b ∈ actions)
    (hao : a.old? = some (k, o)) (hbo : b.old? = some (k, o')) : a = b :=
  eq_of_filterMap_nodup (show (actions.filterMap fun a => a.old?.map Prod.fst).Nodup from h.olds) ha hb
    (by rw [hao]; rfl) (by rw [hbo]; rfl)

theorem Distinct.new_inj (h : Distinct actions) {k : K} {n n' : ρ} (ha : a ∈ actions) (hb : b ∈ actions)
    (han : a.new? = some (k, n)) (hbn : b.new? = some (k, n')) : a = b := by
  have hnews : (actions.filterMap fun a => a.new?.map Prod.fst).Nodup := by
    have h := h.news
    rwa [placed, List.map_filterMap] at h
  exact eq_of_filterMap_nodup hnews ha hb (by rw [han]; rfl) (by rw [hbn]; rfl)

variable [DecidableEq P] [DecidableEq K]

/-- The index holds exactly the entries derived from the rows, and a unique index tells the rows apart. -/
structure IndexStore.Derived (rows : Store K ρ) (s : IndexStore P K ρ) : Prop where
  entries : ∀ p k, (p, k) ∈ s.entries ↔ ∃ row, rows.lookup k = some row ∧ p ∈ s.index.keysOf row
  unique : s.index.unique = true → ∀ {k k' : K} {r r' : ρ} {p : P}, rows.lookup k = some r →
    rows.lookup k' = some r' → s.index.probe r = .ok (some p) → s.index.probe r' = .ok (some p) → k = k'

/-- A consistent table: each row lies under its own key, and every index is derived. -/
structure Table.Consistent (d : TableDef K ρ) (t : Table P K ρ) : Prop where
  keyed : ∀ {k : K} {row : ρ}, t.rows.lookup k = some row →
    match d.pk with
    | some pk => pk row = .ok k
    | none => ∃ n < t.nextRowid, k = d.rowid n
  derived : ∀ s ∈ t.indexes, s.Derived t.rows

/-- The action removes the entry: one of its old row that its new row does not have. -/
def Removes (ix : Index P ρ) (a : Action K ρ) (p : P) (k : K) : Prop :=
  ix.keysOf? k a.old? p ∧ ¬ ix.keysOf? k a.new? p

/-- The action adds the entry: one of its new row that its old row does not have. -/
def Adds (ix : Index P ρ) (a : Action K ρ) (p : P) (k : K) : Prop :=
  ix.keysOf? k a.new? p ∧ ¬ ix.keysOf? k a.old? p

/-- The effect of the actions on a table. -/
structure Applied (actions : List (Action K ρ)) (t t' : Table P K ρ) : Prop where
  put : ∀ a ∈ actions, ∀ {k : K} {n : ρ}, a.new? = some (k, n) → t'.rows.lookup k = some n
  gone : ∀ {k : K}, k ∈ oldKeys actions → k ∉ placedKeys actions → t'.rows.lookup k = none
  kept : ∀ {k : K}, k ∉ oldKeys actions → k ∉ placedKeys actions → t'.rows.lookup k = t.rows.lookup k
  fresh : ∀ {k : K}, k ∈ placedKeys actions → k ∉ oldKeys actions → t.rows.lookup k = none
  indexes : ∀ s' ∈ t'.indexes, ∃ s ∈ t.indexes, s'.index = s.index ∧
    ∀ p k, (p, k) ∈ s'.entries ↔ (∃ a ∈ actions, Adds s.index a p k) ∨
      (p, k) ∈ s.entries ∧ ∀ a ∈ actions, ¬ Removes s.index a p k

/-- Under the key of a row that an action takes away, the index holds entries that the action's moves turn
into those of what it leaves there: an entry that is not the old row's is kept by the new row, and an entry
that stays is there. -/
def Harmless (actions : List (Action K ρ)) (t : Table P K ρ) : Prop :=
  ∀ c ∈ actions, ∀ {k : K} {o : ρ}, c.old? = some (k, o) → ∀ s ∈ t.indexes, ∀ p,
    ((p, k) ∈ s.entries → p ∉ s.index.keysOf o → s.index.keysOf? k c.new? p) ∧
    (s.index.keysOf? k c.new? p → p ∈ s.index.keysOf o → (p, k) ∈ s.entries)

/-- The rows the actions place have probes of their own in the unique indexes. -/
def Unclaimed (actions : List (Action K ρ)) (t : Table P K ρ) : Prop :=
  ∀ s ∈ t.indexes, s.index.unique = true → ∀ {k k' : K} {n w : ρ} {p : P}, (k, n) ∈ placed actions →
    s.index.probe n = .ok (some p) → k' ∉ oldKeys actions → k' ∉ placedKeys actions →
    t.rows.lookup k' = some w → s.index.probe w ≠ .ok (some p)

/-- No two placed rows have one probe in a unique index. -/
def Separate (actions : List (Action K ρ)) (t : Table P K ρ) : Prop :=
  ∀ s ∈ t.indexes, s.index.unique = true → ∀ {k k' : K} {n n' : ρ} {p : P}, (k, n) ∈ placed actions →
    (k', n') ∈ placed actions → s.index.probe n = .ok (some p) → s.index.probe n' = .ok (some p) → k = k'

section Keep

variable {t t' : Table P K ρ}

/-- At every key the entries become those of the row stored there. -/
theorem Applied.entries (h : Applied actions t t') (hdist : Distinct actions) (hharm : Harmless actions t)
    {s s' : IndexStore P K ρ} (hs : s ∈ t.indexes)
    (hderived : ∀ p k, (p, k) ∈ s.entries ↔ ∃ row, t.rows.lookup k = some row ∧ p ∈ s.index.keysOf row)
    (hentries : ∀ p k, (p, k) ∈ s'.entries ↔ (∃ a ∈ actions, Adds s.index a p k) ∨
      (p, k) ∈ s.entries ∧ ∀ a ∈ actions, ¬ Removes s.index a p k) (p : P) (k : K) :
    (p, k) ∈ s'.entries ↔ ∃ row, t'.rows.lookup k = some row ∧ p ∈ s.index.keysOf row := by
  rw [hentries]
  by_cases hplaced : k ∈ placedKeys actions
  · obtain ⟨b, hb, n, hbn⟩ := mem_placedKeys.1 hplaced
    have hnew : ∀ {c : Action K ρ} {q : P}, c ∈ actions → (s.index.keysOf? k c.new? q ↔ c = b ∧ q ∈ s.index.keysOf n) := by
      intro c q hc
      constructor
      · intro hk
        cases hcn : c.new? with
        | none => rw [hcn] at hk; exact hk.elim
        | some x =>
          obtain ⟨k', n'⟩ := x
          rw [hcn] at hk
          obtain ⟨rfl, hq⟩ := hk
          have hcb := hdist.new_inj hc hb hcn hbn
          rw [hcb, hbn] at hcn
          cases hcn
          exact ⟨hcb, hq⟩
      · rintro ⟨rfl, hq⟩
        rw [hbn]
        exact ⟨rfl, hq⟩
    rw [h.put b hb hbn]
    simp only [Option.some.injEq, exists_eq_left']
    by_cases hold : k ∈ oldKeys actions
    · obtain ⟨c, hc, o, hco⟩ := mem_oldKeys.1 hold
      obtain ⟨hleft, hthere⟩ := hharm c hc hco s hs p
      have holdKeys : ∀ {e : Action K ρ}, e ∈ actions → (s.index.keysOf? k e.old? p ↔ e = c ∧ p ∈ s.index.keysOf o) := by
        intro e he
        constructor
        · intro hk
          cases heo : e.old? with
          | none => rw [heo] at hk; exact hk.elim
          | some x =>
            obtain ⟨k', o'⟩ := x
            rw [heo] at hk
            obtain ⟨rfl, hq⟩ := hk
            have hec := hdist.old_inj he hc heo hco
            rw [hec, hco] at heo
            cases heo
            exact ⟨hec, hq⟩
        · rintro ⟨rfl, hq⟩
          rw [hco]
          exact ⟨rfl, hq⟩
      rw [hnew hc] at hleft hthere
      constructor
      · rintro (⟨a, ha, hadd, -⟩ | ⟨hmem, hkept⟩)
        · exact ((hnew ha).1 hadd).2
        · by_cases ho : p ∈ s.index.keysOf o
          · by_contra hn
            exact hkept c hc ⟨(holdKeys hc).2 ⟨rfl, ho⟩, fun hk => hn ((hnew hc).1 hk).2⟩
          · exact (hleft hmem ho).2
      · intro hn
        by_cases hcb : c = b
        · by_cases ho : p ∈ s.index.keysOf o
          · refine .inr ⟨hthere ⟨hcb, hn⟩ ho, fun a ha hrem => ?_⟩
            obtain ⟨hac, -⟩ := (holdKeys ha).1 hrem.1
            exact hrem.2 ((hnew ha).2 ⟨hac.trans hcb, hn⟩)
          · exact .inl ⟨b, hb, (hnew hb).2 ⟨rfl, hn⟩, fun hk => ho ((holdKeys hb).1 hk).2⟩
        · exact .inl ⟨b, hb, (hnew hb).2 ⟨rfl, hn⟩, fun hk => hcb ((holdKeys hb).1 hk).1.symm⟩
    · have hnone : ∀ {e : Action K ρ}, e ∈ actions → ¬ s.index.keysOf? k e.old? p := by
        intro e he hk
        cases heo : e.old? with
        | none => rw [heo] at hk; exact hk
        | some x =>
          rw [heo] at hk
          exact hold (mem_oldKeys.2 ⟨e, he, x.2, by rw [heo, ← hk.1]⟩)
      constructor
      · rintro (⟨a, ha, hadd, -⟩ | ⟨hmem, -⟩)
        · exact ((hnew ha).1 hadd).2
        · obtain ⟨row, hrow, -⟩ := (hderived p k).1 hmem
          rw [h.fresh hplaced hold] at hrow
          cases hrow
      · exact fun hn => .inl ⟨b, hb, (hnew hb).2 ⟨rfl, hn⟩, hnone hb⟩
  · have hnoNew : ∀ {e : Action K ρ}, e ∈ actions → ¬ s.index.keysOf? k e.new? p := by
      intro e he hk
      cases hen : e.new? with
      | none => rw [hen] at hk; exact hk
      | some x =>
        rw [hen] at hk
        exact hplaced (mem_placedKeys.2 ⟨e, he, x.2, by rw [hen, ← hk.1]⟩)
    have hnoAdd : ¬ ∃ a ∈ actions, Adds s.index a p k := by
      rintro ⟨a, ha, hadd⟩
      exact hnoNew ha hadd.1
    simp only [hnoAdd, false_or]
    by_cases hold : k ∈ oldKeys actions
    · obtain ⟨c, hc, o, hco⟩ := mem_oldKeys.1 hold
      rw [h.gone hold hplaced]
      constructor
      · rintro ⟨hmem, hkept⟩
        have ho : p ∈ s.index.keysOf o := by
          by_contra ho
          exact hnoNew hc ((hharm c hc hco s hs p).1 hmem ho)
        refine (hkept c hc ⟨?_, hnoNew hc⟩).elim
        rw [hco]
        exact ⟨rfl, ho⟩
      · rintro ⟨row, hrow, -⟩
        cases hrow
    · rw [h.kept hold hplaced, hderived]
      refine and_iff_left fun a ha hrem => ?_
      have hk := hrem.1
      cases hao : a.old? with
      | none => rw [hao] at hk; exact hk
      | some x =>
        rw [hao] at hk
        exact hold (mem_oldKeys.2 ⟨a, ha, x.2, by rw [hao, ← hk.1]⟩)

omit [DecidableEq P] in
/-- A row stored at the end is a placed one, or was stored before and is not taken away. -/
theorem Applied.stored (h : Applied actions t t') {k : K} {row : ρ} (hrow : t'.rows.lookup k = some row) :
    (k, row) ∈ placed actions ∨
      k ∉ oldKeys actions ∧ k ∉ placedKeys actions ∧ t.rows.lookup k = some row := by
  by_cases hplaced : k ∈ placedKeys actions
  · obtain ⟨b, hb, n, hbn⟩ := mem_placedKeys.1 hplaced
    rw [h.put b hb hbn] at hrow
    cases hrow
    exact .inl (mem_placed.2 ⟨b, hb, hbn⟩)
  · by_cases hold : k ∈ oldKeys actions
    · rw [h.gone hold hplaced] at hrow
      cases hrow
    · rw [h.kept hold hplaced] at hrow
      exact .inr ⟨hold, hplaced, hrow⟩

/-- The actions keep a table consistent. -/
theorem Applied.consistent {d : TableDef K ρ} (h : Applied actions t t') (hdist : Distinct actions)
    (hharm : Harmless actions t) (hunclaimed : Unclaimed actions t) (hseparate : Separate actions t)
    (ht : t.Consistent d) (hnext : t.nextRowid ≤ t'.nextRowid)
    (hkeyed : ∀ {k : K} {n : ρ}, (k, n) ∈ placed actions →
      match d.pk with
      | some pk => pk n = .ok k
      | none => ∃ m < t'.nextRowid, k = d.rowid m) : t'.Consistent d := by
  constructor
  · intro k row hrow
    cases h.stored hrow with
    | inl hplaced => exact hkeyed hplaced
    | inr hkept =>
      have hk := ht.keyed hkept.2.2
      split at hk
      · exact hk
      · obtain ⟨m, hm, rfl⟩ := hk
        exact ⟨m, by omega, rfl⟩
  · intro s' hs'
    obtain ⟨s, hs, hindex, hentries⟩ := h.indexes s' hs'
    have hderived := ht.derived s hs
    constructor
    · rw [hindex]
      exact h.entries hdist hharm hs hderived.entries hentries
    · rw [hindex]
      intro hunique k k' r r' p hr hr' hp hp'
      cases h.stored hr with
      | inl hplaced =>
        cases h.stored hr' with
        | inl hplaced' => exact hseparate s hs hunique hplaced hplaced' hp hp'
        | inr hkept => exact absurd hp' (hunclaimed s hs hunique hplaced hp hkept.1 hkept.2.1 hkept.2.2)
      | inr hkept =>
        cases h.stored hr' with
        | inl hplaced => exact absurd hp (hunclaimed s hs hunique hplaced hp' hkept.1 hkept.2.1 hkept.2.2)
        | inr hkept' => exact hderived.unique hunique hkept.2.2 hkept'.2.2 hp hp'

end Keep

end Jed.Dml
