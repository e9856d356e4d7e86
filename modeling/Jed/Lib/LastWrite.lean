import Mathlib.Data.Finmap
import Mathlib.Data.List.Nodup

/-!
# Runs of writes over a finite map

Inserts that refuse a present key, replacements and removals, run in order. What is stored at the end
under a key is what the last write of that key says.
-/

namespace LastWrite

/-- A finite map from keys to what is stored under them. -/
abbrev Store (κ ν : Type) := Finmap fun _ : κ => ν

/-- One write. -/
inductive Write (κ ν : Type) where
  | insert (k : κ) (v : ν)
  | replace (k : κ) (v : ν)
  | remove (k : κ)

variable {κ ν ε : Type} [DecidableEq κ]

namespace Write

/-- The key that is written. -/
def key : Write κ ν → κ
  | .insert k _ => k
  | .replace k _ => k
  | .remove k => k

/-- What the write leaves under its key. -/
def value : Write κ ν → Option ν
  | .insert _ v => some v
  | .replace _ v => some v
  | .remove _ => none

/-- The write refuses a present key. -/
def refuses : Write κ ν → Bool
  | .insert _ _ => true
  | _ => false

/-- The write on a store; `fault` when an insert meets a present key. -/
def apply (fault : ε) (s : Store κ ν) : Write κ ν → Except ε (Store κ ν)
  | .insert k v => if (s.lookup k).isSome then .error fault else .ok (s.insert k v)
  | .replace k v => .ok (s.insert k v)
  | .remove k => .ok (s.erase k)

theorem lookup_put (s : Store κ ν) (k' k : κ) (v : ν) :
    (s.insert k' v).lookup k = if k' = k then some v else s.lookup k := by
  by_cases heq : k' = k
  · rw [if_pos heq, heq, Finmap.lookup_insert]
  · rw [if_neg heq, Finmap.lookup_insert_of_ne _ (Ne.symm heq)]

theorem lookup_del (s : Store κ ν) (k' k : κ) :
    (s.erase k').lookup k = if k' = k then none else s.lookup k := by
  by_cases heq : k' = k
  · rw [if_pos heq, heq, Finmap.lookup_erase]
  · rw [if_neg heq, Finmap.lookup_erase_ne (Ne.symm heq)]

theorem lookup_apply {fault : ε} {s s' : Store κ ν} {w : Write κ ν} (h : w.apply fault s = .ok s') (k : κ) :
    s'.lookup k = if w.key = k then w.value else s.lookup k := by
  cases w with
  | insert k' v =>
    simp only [apply] at h
    split at h
    · cases h
    · cases h
      exact lookup_put s k' k v
  | replace k' v =>
    cases h
    exact lookup_put s k' k v
  | remove k' =>
    cases h
    exact lookup_del s k' k

theorem absent_of_apply {fault : ε} {s s' : Store κ ν} {w : Write κ ν} (h : w.apply fault s = .ok s')
    (hw : w.refuses = true) : s.lookup w.key = none := by
  cases w with
  | insert k v =>
    simp only [apply] at h
    split at h
    · cases h
    · next hnone => simpa [key] using hnone
  | replace k v => cases hw
  | remove k => cases hw

end Write

/-- The writes in order. -/
def run (fault : ε) (s : Store κ ν) : List (Write κ ν) → Except ε (Store κ ν)
  | [] => .ok s
  | w :: ws =>
    match w.apply fault s with
    | .ok s => run fault s ws
    | .error e => .error e

/-- What the last write of a key leaves under it. -/
def last : List (Write κ ν) → κ → Option (Option ν)
  | [], _ => none
  | w :: ws, k => (last ws k).or (if w.key = k then some w.value else none)

attribute [grind =] last run

variable {fault : ε} {s s' : Store κ ν} {w : Write κ ν} {ws : List (Write κ ν)}

theorem run_cons (h : run fault s (w :: ws) = .ok s') : ∃ t, w.apply fault s = .ok t ∧ run fault t ws = .ok s' := by
  simp only [run] at h
  split at h
  · next t ht => exact ⟨t, ht, h⟩
  · cases h

theorem run_append {ws' : List (Write κ ν)} : ∀ {s s' : Store κ ν},
    run fault s (ws ++ ws') = .ok s' → ∃ t, run fault s ws = .ok t ∧ run fault t ws' = .ok s' := by
  induction ws with
  | nil => exact fun h => ⟨_, rfl, h⟩
  | cons w ws ih =>
    intro s s' h
    obtain ⟨t, ht, h⟩ := run_cons h
    obtain ⟨u, hu, h⟩ := ih h
    exact ⟨u, by simp only [run, ht]; exact hu, h⟩

/-- The rule of a run: a key holds what its last write left, or what it held before. -/
theorem lookup_run : ∀ {s s' : Store κ ν}, run fault s ws = .ok s' →
    ∀ k, s'.lookup k = (last ws k).getD (s.lookup k) := by
  induction ws with
  | nil =>
    intro s s' h k
    cases h
    rfl
  | cons w ws ih =>
    intro s s' h k
    obtain ⟨t, ht, h⟩ := run_cons h
    rw [ih h k, Write.lookup_apply ht k]
    simp only [last]
    cases last ws k with
    | some v => rfl
    | none => split <;> rfl

theorem last_append (ws ws' : List (Write κ ν)) (k : κ) :
    last (ws ++ ws') k = (last ws' k).or (last ws k) := by
  induction ws with
  | nil => simp [last]
  | cons w ws ih => simp only [List.cons_append, last, ih, Option.or_assoc]

theorem last_eq_none {k : κ} : last ws k = none ↔ ∀ w ∈ ws, w.key ≠ k := by
  induction ws with
  | nil => simp [last]
  | cons w ws ih =>
    simp only [last, Option.or_eq_none_iff, ih, List.forall_mem_cons]
    rw [and_comm]
    refine and_congr_left fun _ => ?_
    split <;> simp_all

theorem mem_of_last {k : κ} {v : Option ν} :
    last ws k = some v → ∃ w ∈ ws, w.key = k ∧ w.value = v := by
  induction ws with
  | nil => exact fun h => by cases h
  | cons w ws ih =>
    intro h
    simp only [last] at h
    cases Option.or_eq_some_iff.1 h with
    | inl h =>
      obtain ⟨w', hw', hkey⟩ := ih h
      exact ⟨w', List.mem_cons_of_mem _ hw', hkey⟩
    | inr h =>
      have htail := h.2
      split at htail
      case isTrue hkey =>
        cases htail
        exact ⟨w, List.mem_cons_self .., hkey, rfl⟩
      case isFalse => cases htail

/-- A write that no other write of its key follows is the last. -/
theorem last_of_nodup (hws : (ws.map Write.key).Nodup) (hw : w ∈ ws) :
    last ws w.key = some w.value := by
  induction ws with
  | nil => cases hw
  | cons x ws ih =>
    rw [List.map_cons, List.nodup_cons] at hws
    simp only [last]
    cases hw with
    | head =>
      have hnone : last ws w.key = none :=
        last_eq_none.2 fun y hy heq => hws.1 (List.mem_map.2 ⟨y, hy, heq⟩)
      rw [hnone, if_pos rfl]
      rfl
    | tail _ hw => rw [ih hws.2 hw]; rfl

variable {dels puts : List (Write κ ν)}

theorem last_puts (hputs : (puts.map Write.key).Nodup)
    (hw : w ∈ puts) : last (dels ++ puts) w.key = some w.value := by
  rw [last_append, last_of_nodup hputs hw]
  rfl

/-- An insert that succeeds finds its key absent, or removed before. -/
theorem absent_of_run (h : run fault s (dels ++ puts) = .ok s') (hputs : (puts.map Write.key).Nodup)
    (hw : w ∈ puts) (hrefuses : w.refuses = true) :
    s.lookup w.key = none ∨ ∃ d ∈ dels, d.key = w.key := by
  obtain ⟨pre, post, rfl⟩ := List.append_of_mem hw
  rw [← List.append_assoc] at h
  obtain ⟨t, ht, h⟩ := run_append h
  obtain ⟨u, hu, -⟩ := run_cons h
  have habsent := Write.absent_of_apply hu hrefuses
  rw [lookup_run ht] at habsent
  by_cases hdel : ∃ d ∈ dels, d.key = w.key
  · exact .inr hdel
  · have hnone : last (dels ++ pre) w.key = none := by
      rw [last_eq_none]
      intro x hx heq
      cases List.mem_append.1 hx with
      | inl hx => exact hdel ⟨x, hx, heq⟩
      | inr hx =>
        rw [List.map_append, List.map_cons] at hputs
        exact (List.nodup_append.1 hputs).2.2 x.key (List.mem_map_of_mem hx) w.key (List.mem_cons_self ..) heq
    rw [hnone, Option.getD_none] at habsent
    exact .inl habsent

/-- The write leaves something under its key. -/
def Write.isPut (w : Write κ ν) : Bool := w.value.isSome

/-- A key that is put anywhere in the run is present at its end. -/
def PutsLast (ws : List (Write κ ν)) : Prop :=
  ∀ w ∈ ws, w.isPut = true → ∃ v, last ws w.key = some (some v)

theorem putsLast_append (hdels : ∀ w ∈ dels, w.isPut = false)
    (hputs : ∀ w ∈ puts, w.isPut = true) : PutsLast (dels ++ puts) := by
  intro w hw hput
  have hmem : w ∈ puts := by
    cases List.mem_append.1 hw with
    | inl h => rw [hdels w h] at hput; cases hput
    | inr h => exact h
  cases hlast : last puts w.key with
  | none => exact absurd rfl (last_eq_none.1 hlast w hmem)
  | some v =>
    obtain ⟨w', hw', -, hv⟩ := mem_of_last hlast
    obtain ⟨x, hx⟩ := Option.isSome_iff_exists.1 (hputs w' hw')
    exact ⟨x, by rw [last_append, hlast, ← hv, hx]; rfl⟩

theorem putsLast_of_disjoint
    (h : ∀ w ∈ ws, ∀ w' ∈ ws, w.isPut = true → w'.isPut = false → w.key ≠ w'.key) : PutsLast ws := by
  intro w hw hput
  cases hlast : last ws w.key with
  | none => exact absurd rfl (last_eq_none.1 hlast w hw)
  | some v =>
    obtain ⟨w', hw', hkey, hv⟩ := mem_of_last hlast
    cases v with
    | some x => exact ⟨x, rfl⟩
    | none => exact absurd hkey.symm (h w hw w' hw' hput (by simp [Write.isPut, hv]))

/-- The rule of a run over a set: what is put, and what was there and is not removed. -/
theorem present_run (h : run fault s ws = .ok s') (hlast : PutsLast ws) (k : κ) :
    k ∈ s' ↔ (∃ w ∈ ws, w.key = k ∧ w.isPut = true) ∨
      k ∈ s ∧ ∀ w ∈ ws, w.key = k → w.isPut = true := by
  rw [← Finmap.lookup_isSome, ← Finmap.lookup_isSome, lookup_run h k]
  by_cases hput : ∃ w ∈ ws, w.key = k ∧ w.isPut = true
  · obtain ⟨w, hw, hkey, hp⟩ := hput
    obtain ⟨v, hv⟩ := hlast w hw hp
    rw [hkey] at hv
    simp only [hv, Option.getD_some, Option.isSome_some, true_iff]
    exact .inl ⟨w, hw, hkey, hp⟩
  · simp only [hput, false_or]
    cases hl : last ws k with
    | none =>
      have hfree := last_eq_none.1 hl
      simp only [Option.getD_none, iff_self_and]
      exact fun _ w hw hkey => absurd hkey (hfree w hw)
    | some v =>
      obtain ⟨w, hw, hkey, hv⟩ := mem_of_last hl
      have hnone : v = none := by
        cases v with
        | none => rfl
        | some x => exact absurd ⟨w, hw, hkey, by simp [Write.isPut, hv]⟩ hput
      rw [hnone]
      simp only [Option.getD_some, Option.isSome_none, Bool.false_eq_true, false_iff, not_and]
      exact fun _ hall => hput ⟨w, hw, hkey, hall w hw hkey⟩

end LastWrite
