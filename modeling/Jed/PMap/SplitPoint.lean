import Jed.PMap.Contents

/-!
# Split points exist and fit

`split_point` keeps the last `m` before the left half overflows and the last one, from the right,
before the right half does. Both halves fit at every `m` between the two, and there is such an `m`
as soon as the halves are monotone and never overflow together.
-/

namespace Jed.PMap

variable {ρ : Type}

/-- The run of a range on which a predicate holds from its low end. -/
theorem takeWhile_range' (p : Nat → Bool) (lo n : Nat) :
    ∃ k ≤ n, (List.range' lo n).takeWhile p = List.range' lo k ∧
      (k < n → p (lo + k) = false) ∧ ∀ m, lo ≤ m → m < lo + k → p m = true := by
  induction n generalizing lo with
  | zero => exact ⟨0, le_rfl, rfl, by simp, by omega⟩
  | succ n ih =>
    rw [List.range'_succ, List.takeWhile_cons]
    cases hp : p lo with
    | false => exact ⟨0, by omega, rfl, fun _ => by simpa using hp, by omega⟩
    | true =>
      obtain ⟨k, hk, heq, hstop, hrun⟩ := ih (lo + 1)
      refine ⟨k + 1, by omega, by simp [heq, List.range'_succ], fun h => ?_, fun m h1 h2 => ?_⟩
      · rw [← hstop (by omega)]
        congr 1
        omega
      · rcases Nat.eq_or_lt_of_le h1 with rfl | h1
        · exact hp
        · exact hrun m h1 (by omega)

/-- The run of a range on which a predicate holds from its high end. -/
theorem takeWhile_reverse_range' (p : Nat → Bool) (lo n : Nat) :
    ∃ k ≤ n, (List.range' lo n).reverse.takeWhile p = (List.range' (lo + n - k) k).reverse ∧
      (k < n → p (lo + n - k - 1) = false) ∧ ∀ m, lo + n - k ≤ m → m < lo + n → p m = true := by
  induction n with
  | zero => exact ⟨0, le_rfl, rfl, by simp, by omega⟩
  | succ n ih =>
    rw [List.range'_1_concat, List.reverse_append, List.reverse_singleton, List.singleton_append,
      List.takeWhile_cons]
    cases hp : p (lo + n) with
    | false => exact ⟨0, by omega, rfl, fun _ => by simpa using hp, by omega⟩
    | true =>
      obtain ⟨k, hk, heq, hstop, hrun⟩ := ih
      refine ⟨k + 1, by omega, ?_, fun h => ?_, fun m h1 h2 => ?_⟩
      · rw [if_pos rfl, heq, List.range'_1_concat, List.reverse_append]
        have h1 : lo + (n + 1) - (k + 1) = lo + n - k := by omega
        have h2 : lo + n - k + k = lo + n := by omega
        simp [h1, h2]
      · rw [← hstop (by omega)]
        congr 1
        omega
      · rcases Nat.lt_or_ge m (lo + n) with h | h
        · exact hrun m (by omega) h
        · obtain rfl : m = lo + n := by omega
          exact hp

/-- What a split decision is: the two extreme fits, and a choice between them. -/
theorem splitPoint_bounds {mLo mHi : Nat} (payload cap : Nat) (rightEdge : Bool)
    (left right : Nat → Nat) (hle : mLo ≤ mHi) :
    ∃ a b, a ≤ mHi + 1 - mLo ∧ b ≤ mHi + 1 - mLo ∧
      (∀ m, mLo ≤ m → m < mLo + a → left m ≤ cap) ∧
      (a < mHi + 1 - mLo → cap < left (mLo + a)) ∧
      (∀ m, mHi + 1 - b ≤ m → m ≤ mHi → right m ≤ cap) ∧
      (b < mHi + 1 - mLo → cap < right (mHi - b)) ∧
      (∀ m, splitPoint mLo mHi payload cap rightEdge left right = some m →
        mHi + 1 - b ≤ m ∧ m < mLo + a) ∧
      (0 < a → 0 < b → mHi + 1 - b < mLo + a →
        (splitPoint mLo mHi payload cap rightEdge left right).isSome) := by
  obtain ⟨a, ha, heqa, hstopa, hruna⟩ :=
    takeWhile_range' (fun m => decide (left m ≤ cap)) mLo (mHi + 1 - mLo)
  obtain ⟨b, hb, heqb, hstopb, hrunb⟩ :=
    takeWhile_reverse_range' (fun m => decide (right m ≤ cap)) mLo (mHi + 1 - mLo)
  have hend : mLo + (mHi + 1 - mLo) = mHi + 1 := by omega
  rw [hend] at heqb hstopb hrunb
  refine ⟨a, b, ha, hb, fun m h1 h2 => of_decide_eq_true (hruna m h1 h2),
    fun h => not_le.mp (of_decide_eq_false (hstopa h)),
    fun m h1 h2 => of_decide_eq_true (hrunb m h1 (by omega)),
    fun h => ?_, fun m hm => ?_, fun h1 h2 h3 => ?_⟩
  · have hstop := of_decide_eq_false (hstopb h)
    rw [show mHi + 1 - b - 1 = mHi - b by omega] at hstop
    exact not_le.mp hstop
  · unfold splitPoint at hm
    simp only [heqa, heqb, List.getLast?_reverse, List.getLast?_range', List.head?_range'] at hm
    split at hm
    · cases hm
    · rename_i mMax hMax
      split at hm
      · cases hm
      · rename_i mMin hMin
        have hmax : mMax < mLo + a ∧ a ≠ 0 := by
          split at hMax
          · cases hMax
          · have := Option.some.inj hMax
            omega
        have hmin : mMin = mHi + 1 - b := by
          split at hMin
          · cases hMin
          · exact (Option.some.inj hMin).symm
        split at hm
        · cases hm
        · split at hm
          · have := Option.some.inj hm
            omega
          · have := Option.some.inj hm
            omega
  · unfold splitPoint
    simp only [heqa, heqb, List.getLast?_reverse, List.getLast?_range', List.head?_range']
    rw [if_neg (by omega), if_neg (by omega)]
    simp only
    rw [if_neg (by omega)]
    split <;> rfl

theorem splitPoint_fits {mLo mHi payload cap : Nat} {rightEdge : Bool} {left right : Nat → Nat}
    (hle : mLo ≤ mHi) {m : Nat}
    (h : splitPoint mLo mHi payload cap rightEdge left right = some m) :
    left m ≤ cap ∧ right m ≤ cap := by
  obtain ⟨a, b, ha, hb, hleft, -, hright, -, hm, -⟩ :=
    splitPoint_bounds payload cap rightEdge left right hle
  obtain ⟨h1, h2⟩ := hm m h
  exact ⟨hleft m (by omega) h2, hright m h1 (by omega)⟩

/-- A split point exists when each side fits at its end of the range and, past the last left half
    that fits, the right half fits. -/
theorem splitPoint_isSome {mLo mHi cap : Nat} (payload : Nat) (rightEdge : Bool)
    (left right : Nat → Nat) (hle : mLo ≤ mHi) (hleft : left mLo ≤ cap) (hright : right mHi ≤ cap)
    (hanti : ∀ m m', m ≤ m' → right m' ≤ right m)
    (hcross : ∀ m, mLo ≤ m → m < mHi → cap < left (m + 1) → right m ≤ cap) :
    (splitPoint mLo mHi payload cap rightEdge left right).isSome := by
  obtain ⟨a, b, ha, hb, -, hstopa, -, hstopb, -, hsome⟩ :=
    splitPoint_bounds payload cap rightEdge left right hle
  have ha0 : 0 < a := by
    rcases Nat.eq_zero_or_pos a with rfl | h
    · have := hstopa (by omega)
      simp only [Nat.add_zero] at this
      omega
    · exact h
  have hb0 : 0 < b := by
    rcases Nat.eq_zero_or_pos b with rfl | h
    · have := hstopb (by omega)
      simp only [Nat.sub_zero] at this
      omega
    · exact h
  refine hsome ha0 hb0 ?_
  -- were the first right fit past the last left fit, the right half would overflow at `mHi - b`
  by_contra hge
  have hb' : b < mHi + 1 - mLo := by omega
  have hover := hstopb hb'
  have hfit : right (mLo + a - 1) ≤ cap := by
    rcases Nat.lt_or_ge a (mHi + 1 - mLo) with h | h
    · refine hcross _ (by omega) (by omega) ?_
      have := hstopa h
      rwa [show mLo + a - 1 + 1 = mLo + a by omega]
    · rw [show mLo + a - 1 = mHi by omega]
      exact hright
  have := hanti (mLo + a - 1) (mHi - b) (by omega)
  omega

end Jed.PMap
