import Mathlib.Data.List.Basic
import Mathlib.Data.Int.Basic

/-!
# Elements by their places

The elements of a list whose places, counted from one in the integers, meet a predicate; the
intervals among them are what `take` and `drop` give. A list repeated without end, cut at a length.
-/

namespace Jed.Places

variable {α : Type}

/-- The elements of `s` at the places that meet `P`. -/
def elementsAt (P : Int → Prop) [DecidablePred P] (s : List α) : List α :=
  ((s.zipIdx 1).filter fun x => P x.2).map Prod.fst

/-- The first `k` elements of `s` repeated without end. -/
def cycled (s : List α) (k : Nat) : List α := (List.range k).filterMap fun i => s[i % s.length]?

theorem filter_zipIdx_congr {P Q : ℤ → Prop} [DecidablePred P] [DecidablePred Q] (s : List α) (k : ℕ)
    (h : ∀ i : ℤ, k ≤ i → i < k + s.length → (P i ↔ Q i)) :
    (s.zipIdx k).filter (fun x => P x.2) = (s.zipIdx k).filter (fun x => Q x.2) := by
  refine List.filter_congr fun x hx => ?_
  obtain ⟨hlo, hhi, -⟩ := List.mem_zipIdx hx
  exact decide_eq_decide.mpr (h x.2 (by omega) (by omega))

theorem elementsAt_congr {P Q : ℤ → Prop} [DecidablePred P] [DecidablePred Q] {s : List α}
    (h : ∀ i : ℤ, 1 ≤ i → i ≤ s.length → (P i ↔ Q i)) : elementsAt P s = elementsAt Q s := by
  unfold elementsAt
  rw [filter_zipIdx_congr s 1 fun i hlo hhi => h i (by omega) (by omega)]

theorem filter_zipIdx_interval (lo hi : ℤ) (s : List α) (k : ℕ) :
    ((s.zipIdx k).filter fun x => lo ≤ (x.2 : ℤ) ∧ (x.2 : ℤ) < hi).map Prod.fst =
      (s.take (hi - k).toNat).drop (lo - k).toNat := by
  induction s generalizing k with
  | nil => simp
  | cons a s ih =>
    have hrest := ih (k + 1)
    rw [List.zipIdx_cons, List.filter_cons]
    by_cases hlo : lo ≤ k
    · by_cases hhi : (k : ℤ) < hi
      · -- The first element is within: nothing is dropped.
        have htake : (hi - k).toNat = (hi - (k + 1 : ℕ)).toNat + 1 := by omega
        have hdrop : (lo - (k + 1 : ℕ)).toNat = 0 := by omega
        have hdrop' : (lo - k).toNat = 0 := by omega
        rw [if_pos (by simp [hlo, hhi]), List.map_cons, hrest, htake, hdrop, hdrop',
          List.take_succ_cons]
        rfl
      · have htake : (hi - k).toNat = 0 := by omega
        have htake' : (hi - (k + 1 : ℕ)).toNat = 0 := by omega
        rw [if_neg (by simp [hhi]), hrest, htake, htake']
        simp
    · rw [if_neg (by simp [hlo]), hrest]
      by_cases hhi : (k : ℤ) < hi
      · have htake : (hi - k).toNat = (hi - (k + 1 : ℕ)).toNat + 1 := by omega
        have hdrop : (lo - k).toNat = (lo - (k + 1 : ℕ)).toNat + 1 := by omega
        rw [htake, hdrop, List.take_succ_cons, List.drop_succ_cons]
      · have htake : (hi - k).toNat = 0 := by omega
        have htake' : (hi - (k + 1 : ℕ)).toNat = 0 := by omega
        rw [htake, htake']
        simp

theorem elementsAt_interval (lo hi : ℤ) (s : List α) :
    elementsAt (fun i => lo ≤ i ∧ i < hi) s = (s.take (hi - 1).toNat).drop (lo - 1).toNat :=
  filter_zipIdx_interval lo hi s 1

theorem elementsAt_lt (hi : ℤ) (s : List α) : elementsAt (· < hi) s = s.take (hi - 1).toNat := by
  have hall := elementsAt_interval 1 hi s
  rw [Int.sub_self, Int.toNat_zero, List.drop_zero] at hall
  rw [← hall]
  exact elementsAt_congr fun i hlo _ => by simp [hlo]

theorem elementsAt_ge (lo : ℤ) (s : List α) : elementsAt (lo ≤ ·) s = s.drop (lo - 1).toNat := by
  have hall := elementsAt_interval lo (s.length + 1) s
  have hlen : ((s.length : ℤ) + 1 - 1).toNat = s.length := by omega
  rw [hlen, List.take_length] at hall
  rw [← hall]
  exact elementsAt_congr fun i _ hhi => by
    have hlast : i < s.length + 1 := by omega
    simp [hlast]

theorem elementsAt_eq_nil {P : ℤ → Prop} [DecidablePred P] {s : List α}
    (h : ∀ i : ℤ, 1 ≤ i → i ≤ s.length → ¬ P i) : elementsAt P s = [] := by
  have hnone := elementsAt_interval 1 1 s
  rw [Int.sub_self, Int.toNat_zero, List.take_zero, List.drop_nil] at hnone
  rw [← hnone]
  refine elementsAt_congr fun i hlo hhi => ⟨fun hP => absurd hP (h i hlo hhi), fun hi => ?_⟩
  omega

theorem cycled_of_le (s : List α) {k : ℕ} (h : k ≤ s.length) : cycled s k = s.take k := by
  induction k with
  | zero => rfl
  | succ k ih =>
    have hk : k < s.length := h
    unfold cycled at ih ⊢
    rw [List.range_succ, List.filterMap_append, ih (Nat.le_of_lt hk), List.take_add_one,
      List.filterMap_cons, List.filterMap_nil, Nat.mod_eq_of_lt hk, List.getElem?_eq_getElem hk]
    rfl

theorem cycled_round (s : List α) (k : ℕ) : cycled s (s.length + k) = s ++ cycled s k := by
  have hfirst := cycled_of_le s (Nat.le_refl _)
  unfold cycled at hfirst ⊢
  rw [List.range_add, List.filterMap_append, hfirst, List.take_length, List.filterMap_map]
  refine congrArg (s ++ ·) (List.filterMap_congr fun i _ => ?_)
  rw [Function.comp, Nat.add_mod_left]

/-- Whole rounds of `s` and the part that is left. -/
theorem cycled_rounds (s : List α) (c : ℕ) {t : ℕ} (h : t ≤ s.length) :
    cycled s (c * s.length + t) = (List.replicate c s).flatten ++ s.take t := by
  induction c with
  | zero => rw [Nat.zero_mul, Nat.zero_add, cycled_of_le s h, List.replicate_zero, List.flatten_nil,
      List.nil_append]
  | succ c ih =>
    have hsum : (c + 1) * s.length + t = s.length + (c * s.length + t) := by
      rw [Nat.add_mul, Nat.one_mul]
      omega
    rw [hsum, cycled_round, ih, List.replicate_succ, List.flatten_cons, List.append_assoc]

theorem cycled_nil (k : ℕ) : cycled ([] : List α) k = [] := by
  unfold cycled
  simp

end Jed.Places
