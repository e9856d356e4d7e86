import Jed.Lib.KeyCodes

/-!
# Binary search

The search of a slice by a probe that says how an item stands to what is looked for, by halving the part
that may hold it. Where the items ascend, the item that the probe is equal at is found.
-/

namespace BinarySearch

/-- The last index that is not passed, of the `size` items from `base` on. -/
def narrow (probe : Nat → Ordering) (base size : Nat) : Nat :=
  if _h : 1 < size then
    let mid := base + size / 2
    narrow probe (if probe mid = .gt then base else mid) (size - size / 2)
  else base
termination_by size

/-- `binary_search_by(..).ok()`. -/
def search (probe : Nat → Ordering) (len : Nat) : Option Nat :=
  if len = 0 then none
  else
    let i := narrow probe 0 len
    if probe i = .eq then some i else none

/-- The items ascend: behind one that is not less, all are greater. -/
def Ascending (probe : Nat → Ordering) (len : Nat) : Prop :=
  ∀ i j, i < j → j < len → probe i ≠ .lt → probe j = .gt

theorem narrow_lt (probe : ℕ → Ordering) {base size : ℕ} (h : 0 < size) :
    narrow probe base size < base + size := by
  induction size using Nat.strong_induction_on generalizing base with
  | h size ih =>
    rw [narrow]
    by_cases hmore : 1 < size
    · rw [dif_pos hmore]
      dsimp only
      have hlow := @ih (size - size / 2) (by omega) base (by omega)
      have hhigh := @ih (size - size / 2) (by omega) (base + size / 2) (by omega)
      by_cases hgt : probe (base + size / 2) = .gt
      · rw [if_pos hgt]
        omega
      · rw [if_neg hgt]
        omega
    · rw [dif_neg hmore]
      omega

/-- The part that is kept holds the item that is looked for. -/
theorem narrow_eq {probe : ℕ → Ordering} {len : ℕ} (hasc : Ascending probe len) {k : ℕ}
    (hk : probe k = .eq) {base size : ℕ} (hlow : base ≤ k) (hhigh : k < base + size)
    (hlen : base + size ≤ len) : narrow probe base size = k := by
  induction size using Nat.strong_induction_on generalizing base with
  | h size ih =>
    rw [narrow]
    by_cases hmore : 1 < size
    · rw [dif_pos hmore]
      dsimp only
      generalize hmid : base + size / 2 = mid
      by_cases hgt : probe mid = .gt
      · rw [if_pos hgt]
        have hbelow : k < mid := by
          by_contra hge
          cases Nat.lt_or_eq_of_le (not_lt.mp hge) with
          | inl hlt =>
            have := hasc mid k hlt (by omega) (by rw [hgt]; decide)
            rw [hk] at this
            cases this
          | inr heq =>
            rw [heq, hk] at hgt
            cases hgt
        exact ih (size - size / 2) (by omega) hlow (by omega) (by omega)
      · rw [if_neg hgt]
        have habove : mid ≤ k := by
          by_contra hlt
          exact hgt (hasc k mid (not_le.mp hlt) (by omega) (by rw [hk]; decide))
        exact ih (size - size / 2) (by omega) habove (by omega) (by omega)
    · rw [dif_neg hmore]
      omega

/-- What is found is an item that the probe is equal at. -/
theorem search_some {probe : ℕ → Ordering} {len i : ℕ} (h : search probe len = some i) :
    i < len ∧ probe i = .eq := by
  unfold search at h
  split at h
  · cases h
  · rename_i hne
    dsimp only at h
    split at h
    · rename_i heq
      cases h
      have hlt := @narrow_lt probe 0 len (by omega)
      exact ⟨by omega, heq⟩
    · cases h

theorem search_of_ascending {probe : ℕ → Ordering} {len : ℕ} (hasc : Ascending probe len) {k : ℕ}
    (hlt : k < len) (hk : probe k = .eq) : search probe len = some k := by
  unfold search
  have hfound := @narrow_eq _ _ hasc _ hk 0 len (Nat.zero_le k) (by omega) (by omega)
  rw [if_neg (by omega)]
  dsimp only
  rw [hfound, if_pos hk]

/-- Each of the keys of an ascending list is found. -/
theorem search_of_pairwise {α : Type} [LinearOrder α] {cmp : α → α → Ordering}
    (hlt : ∀ a b, cmp a b = .lt ↔ a < b) (hgt : ∀ a b, cmp a b = .gt ↔ b < a) {keys : List α} (d : α)
    (h : keys.Pairwise (· < ·)) {k : ℕ} (hk : k < keys.length) :
    search (fun i => cmp (keys.getD i d) keys[k]) keys.length = some k := by
  have hkey : ∀ i (hi : i < keys.length), keys.getD i d = keys[i] := fun i hi => by
    rw [List.getD_eq_getElem?_getD, List.getElem?_eq_getElem hi, Option.getD_some]
  refine search_of_ascending (fun i j hij hj hne => ?_) hk ?_
  · have hi : i < keys.length := hij.trans hj
    have hle : keys[k] ≤ keys[i] := by
      rw [hkey i hi, Ne, hlt, not_lt] at hne
      exact hne
    rw [hkey j hj, hgt]
    exact hle.trans_lt (List.pairwise_iff_getElem.mp h i j hi hj hij)
  · rw [hkey k hk]
    cases hcmp : cmp keys[k] keys[k] with
    | lt => exact absurd ((hlt _ _).mp hcmp) (lt_irrefl _)
    | eq => rfl
    | gt => exact absurd ((hgt _ _).mp hcmp) (lt_irrefl _)

end BinarySearch
