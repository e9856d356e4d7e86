import Mathlib.Data.List.Forall2
import Jed.Lib.SortedMap

/-!
# Related maps

Two sorted maps of the same keys, over related values, stay so under the same operations. What an
operation takes out of a map is accounted for by permutations.
-/

namespace SortedMap

variable {κ β γ : Type} [LinearOrder κ]

/-- The values are related, key by key. -/
def Rel (R : β → γ → Prop) (m : List (κ × β)) (n : List (κ × γ)) : Prop :=
  List.Forall₂ (fun a b => a.1 = b.1 ∧ R a.2 b.2) m n

variable {R : β → γ → Prop} {m : List (κ × β)} {n : List (κ × γ)}

omit [LinearOrder κ] in
theorem Rel.keys (h : Rel R m n) : m.map Prod.fst = n.map Prod.fst := by
  induction h with
  | nil => rfl
  | cons hab _ ih => rw [List.map_cons, List.map_cons, hab.1, ih]

theorem sorted_iff_keys : Sorted m ↔ (m.map Prod.fst).Pairwise (· < ·) := List.pairwise_map.symm

theorem Rel.sorted (h : Rel R m n) (hm : Sorted m) : Sorted n := by
  rw [sorted_iff_keys] at hm ⊢
  rwa [← h.keys]

omit [LinearOrder κ] in
theorem Rel.mono {S : β → γ → Prop} (h : Rel R m n) (hS : ∀ a b, a ∈ m → R a.2 b → S a.2 b) :
    Rel S m n := by
  induction h with
  | nil => exact .nil
  | @cons a b m n hab _ ih =>
    exact .cons ⟨hab.1, hS a b.2 List.mem_cons_self hab.2⟩
      (ih fun a b ha => hS a b (List.mem_cons_of_mem _ ha))

omit [LinearOrder κ] in
theorem Rel.mapValues_eq {δ : Type} {f : β → δ} {g : γ → δ} (h : Rel R m n)
    (hfg : ∀ b c, R b c → f b = g c) : mapValues f m = mapValues g n := by
  induction h with
  | nil => rfl
  | cons hab _ ih =>
    rw [mapValues, mapValues, List.map_cons, List.map_cons, hab.1, hfg _ _ hab.2]
    exact congrArg _ ih

/-- A key is bound on neither side, or to related values. -/
theorem Rel.get (h : Rel R m n) (k : κ) :
    (SortedMap.get k m = none ∧ SortedMap.get k n = none) ∨
      ∃ v w, SortedMap.get k m = some v ∧ SortedMap.get k n = some w ∧ R v w := by
  induction h with
  | nil => exact .inl ⟨rfl, rfl⟩
  | @cons a b m n hab _ ih =>
    rw [get_cons, get_cons, ← hab.1]
    by_cases heq : a.1 = k
    · rw [if_pos heq, if_pos heq]
      exact .inr ⟨_, _, rfl, rfl, hab.2⟩
    · rw [if_neg heq, if_neg heq]
      exact ih

theorem mem_of_get {k : κ} {v : β} (hget : SortedMap.get k m = some v) : (k, v) ∈ m := by
  induction m with
  | nil => cases hget
  | cons a m ih =>
    rw [get_cons] at hget
    by_cases heq : a.1 = k
    · rw [if_pos heq] at hget
      cases hget
      rw [← heq]
      exact List.mem_cons_self
    · rw [if_neg heq] at hget
      exact List.mem_cons_of_mem _ (ih hget)

theorem Rel.insert (h : Rel R m n) (k : κ) {v : β} {w : γ} (hv : R v w) :
    Rel R (SortedMap.insert k v m) (SortedMap.insert k w n) := by
  induction h with
  | nil => exact .cons ⟨rfl, hv⟩ .nil
  | @cons a b m n hab hmn ih =>
    rw [SortedMap.insert, SortedMap.insert, ← hab.1]
    by_cases hlt : a.1 < k
    · rw [if_pos hlt, if_pos hlt]
      exact .cons hab ih
    · rw [if_neg hlt, if_neg hlt]
      split
      · exact .cons ⟨rfl, hv⟩ (.cons hab hmn)
      · exact .cons ⟨rfl, hv⟩ hmn

theorem Rel.erase (h : Rel R m n) (k : κ) : Rel R (SortedMap.erase k m) (SortedMap.erase k n) := by
  induction h with
  | nil => exact .nil
  | @cons a b m n hab _ ih =>
    rw [SortedMap.erase, SortedMap.erase, List.filter_cons, List.filter_cons, ← hab.1]
    split
    · exact .cons hab ih
    · exact ih

/-- Without a key, a map has its other values. -/
theorem erase_perm (hm : Sorted m) (k : κ) :
    (m.map Prod.snd).Perm ((SortedMap.get k m).toList ++ (SortedMap.erase k m).map Prod.snd) := by
  induction m with
  | nil => exact .nil
  | cons a m ih =>
    obtain ⟨ha, hm⟩ := List.pairwise_cons.mp hm
    rw [get_cons, SortedMap.erase, List.filter_cons]
    by_cases heq : a.1 = k
    · have hrest : SortedMap.erase k m = m := erase_of_absent fun e he => by
        rw [← heq]
        exact (ha e he).ne'
      rw [SortedMap.erase] at hrest
      rw [if_pos heq, if_neg (by simpa using heq), hrest]
      exact .refl _
    · rw [if_neg heq, if_pos (by simpa using heq)]
      exact ((ih hm).cons a.2).trans List.perm_middle.symm

/-- A binding takes the place of the key's old one. -/
theorem insert_perm (hm : Sorted m) (k : κ) (v : β) :
    (v :: m.map Prod.snd).Perm ((SortedMap.get k m).toList ++ (SortedMap.insert k v m).map Prod.snd) := by
  induction m with
  | nil => exact .refl _
  | cons a m ih =>
    obtain ⟨ha, hm⟩ := List.pairwise_cons.mp hm
    rw [get_cons, SortedMap.insert]
    by_cases hlt : a.1 < k
    · rw [if_pos hlt, if_neg hlt.ne]
      exact (List.Perm.swap ..).trans (((ih hm).cons a.2).trans List.perm_middle.symm)
    · rw [if_neg hlt]
      by_cases heq : a.1 = k
      · rw [if_pos heq, if_neg (heq ▸ lt_irrefl a.1)]
        exact .swap ..
      · have hgt : k < a.1 := lt_of_le_of_ne (not_lt.mp hlt) (Ne.symm heq)
        have hnone : SortedMap.get k m = none := get_eq_none fun e he => (hgt.trans (ha e he)).ne'
        rw [if_neg heq, if_pos hgt, hnone]
        exact .refl _

theorem insert_erase_self (hm : Sorted m) (k : κ) (v : β) :
    SortedMap.insert k v (SortedMap.erase k m) = SortedMap.insert k v m := by
  induction m with
  | nil => rfl
  | cons a m ih =>
    obtain ⟨ha, hm⟩ := List.pairwise_cons.mp hm
    by_cases heq : a.1 = k
    · have hrest : SortedMap.erase k (a :: m) = m := by
        rw [SortedMap.erase, List.filter_cons, if_neg (by simpa using heq)]
        exact erase_of_absent fun e he => by
          rw [← heq]
          exact (ha e he).ne'
      rw [hrest, SortedMap.insert, if_neg (heq ▸ lt_irrefl a.1), if_neg (heq ▸ lt_irrefl a.1)]
      cases m with
      | nil => rfl
      | cons b m =>
        have hb := ha b List.mem_cons_self
        rw [heq] at hb
        rw [SortedMap.insert, if_neg hb.not_gt, if_pos hb]
    · have hrest : SortedMap.erase k (a :: m) = a :: SortedMap.erase k m := by
        rw [SortedMap.erase, List.filter_cons, if_pos (by simpa using heq)]
        rfl
      rw [hrest, SortedMap.insert, SortedMap.insert, ih hm]
      by_cases hlt : a.1 < k
      · rw [if_pos hlt, if_pos hlt]
      · have hgt : k < a.1 := lt_of_le_of_ne (not_lt.mp hlt) (Ne.symm heq)
        have habsent : SortedMap.erase k m = m := erase_of_absent fun e he => (hgt.trans (ha e he)).ne'
        rw [if_neg hlt, if_neg hlt, if_pos hgt, if_pos hgt, habsent]

theorem insert_perm_erase (hm : Sorted m) (k : κ) (v : β) :
    ((SortedMap.insert k v m).map Prod.snd).Perm (v :: (SortedMap.erase k m).map Prod.snd) := by
  have hnone : SortedMap.get k (SortedMap.erase k m) = none := by
    rw [get_erase, if_pos rfl]
  have hperm := insert_perm (hm.erase k) k v
  rw [hnone, insert_erase_self hm] at hperm
  exact hperm.symm

/-- Keys that are all those of a map, and as many, are the same keys. -/
theorem keys_eq_of_length (hm : Sorted m) (hn : Sorted n) (hlen : m.length = n.length)
    (hsub : ∀ e ∈ m, (SortedMap.get e.1 n).isSome) : m.map Prod.fst = n.map Prod.fst := by
  have hm' := sorted_iff_keys.mp hm
  have hn' := sorted_iff_keys.mp hn
  have hsubset : m.map Prod.fst ⊆ n.map Prod.fst := by
    intro k hk
    obtain ⟨e, he, rfl⟩ := List.mem_map.mp hk
    exact get_isSome_iff.mp (hsub e he)
  have hperm : (m.map Prod.fst).Perm (n.map Prod.fst) :=
    (List.subperm_of_subset (hm'.imp ne_of_lt) hsubset).perm_of_length_le (by simp [hlen])
  exact hperm.eq_of_pairwise' (hm'.imp le_of_lt) (hn'.imp le_of_lt)

/-- A map of the same size whose bindings are all related to those of another is related to it. -/
theorem rel_of_length (hm : Sorted m) (hn : Sorted n) (hlen : m.length = n.length)
    (hsub : ∀ e ∈ m, ∃ w, SortedMap.get e.1 n = some w ∧ R e.2 w) : Rel R m n := by
  have hkeys := keys_eq_of_length hm hn hlen fun e he => by
    obtain ⟨w, hw, -⟩ := hsub e he
    rw [hw]
    rfl
  clear hlen
  induction m generalizing n with
  | nil =>
    cases n with
    | nil => exact .nil
    | cons b n => cases hkeys
  | cons a m ih =>
    cases n with
    | nil => cases hkeys
    | cons b n =>
      obtain ⟨hab, hkeys⟩ := List.cons_eq_cons.mp hkeys
      obtain ⟨ha, hm⟩ := List.pairwise_cons.mp hm
      obtain ⟨hb, hn⟩ := List.pairwise_cons.mp hn
      refine .cons ⟨hab, ?_⟩ (ih hm hn (fun e he => ?_) hkeys)
      · obtain ⟨w, hw, hR⟩ := hsub a List.mem_cons_self
        rw [get_cons, if_pos hab.symm] at hw
        cases hw
        exact hR
      · obtain ⟨w, hw, hR⟩ := hsub e (List.mem_cons_of_mem _ he)
        rw [get_cons, if_neg (by rw [← hab]; exact (ha e he).ne)] at hw
        exact ⟨w, hw, hR⟩

end SortedMap
