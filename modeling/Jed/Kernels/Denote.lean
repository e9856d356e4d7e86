import Jed.Kernels.Substr
import Jed.Lib.Places

/-!
# What the kernels denote

The slices of `Jed.Kernels.Substr` by the places of their elements in the unbounded integers.
-/

namespace Jed.Kernels

open Sql Places

variable {α : Type}

/-- The places from `start`, `count` of them where a count is given. -/
def InWindow (start : Int) (count : Option Int) (i : Int) : Prop :=
  start ≤ i ∧ ∀ c ∈ count, i < start + c

instance (start : Int) (count : Option Int) (i : Int) : Decidable (InWindow start count i) :=
  inferInstanceAs (Decidable (_ ∧ _))

def substrDenotes (s : List α) (start : Int) (count : Option Int) : Except KernelError (List α) :=
  if ∃ c ∈ count, c < 0 then .error negativeLength else .ok (elementsAt (InWindow start count) s)

def overlayDenotes (s r : List α) (start : Int) (count : Option Int) : Except KernelError (List α) :=
  let tail := start + count.getD r.length
  if start ≤ 0 then .error negativeLength
  else if -2 ^ 31 ≤ tail ∧ tail < 2 ^ 31 then
    .ok (elementsAt (· < start) s ++ r ++ elementsAt (tail ≤ ·) s)
  else .error outOfInt32

def leftDenotes (s : List α) (n : Int) : List α :=
  elementsAt (fun i => if n < 0 then i ≤ s.length + n else i ≤ n) s

def rightDenotes (s : List α) (n : Int) : List α :=
  elementsAt (fun i => if n < 0 then -n < i else s.length - n < i) s

def padDenotes (s : List Char) (len : Int) (fill : List Char) (left : Bool) :
    Except KernelError (List Char) :=
  let kept := elementsAt (· ≤ len) s
  let filled := cycled fill (len - s.length).toNat
  if len ≤ 0 then .ok []
  else if len > MAX_RESULT_CHARS ∨ utf8Len kept + utf8Len filled > MAX_RESULT_CHARS then
    .error lengthTooLarge
  else .ok (if left then filled ++ kept else kept ++ filled)

variable {n : ℤ}

theorem i64_of_isI64 (h : IsI64 n) : i64 n = some n := if_pos h

variable {lo hi : ℤ}

theorem slice_of_le {s : List α} (h0 : 0 ≤ lo) (hle : lo ≤ hi) (hhi : hi ≤ s.length) :
    slice s lo hi = some ((s.take hi.toNat).drop lo.toNat) := if_pos ⟨h0, hle, hhi⟩

theorem slice_places {s : List α} (h0 : 1 ≤ lo) (hle : lo ≤ hi) (hhi : hi ≤ s.length + 1) :
    slice s (lo - 1) (hi - 1) = some (elementsAt (fun i => lo ≤ i ∧ i < hi) s) := by
  rw [slice_of_le (by omega) (by omega) (by omega), elementsAt_interval]

variable {start : ℤ}

/-- The end of the window, one past the last place at most. -/
theorem windowEnd_eq {count : Option ℤ} (hn : IsI64 (n + 1)) :
    windowEnd n start count =
      some (if ∃ c ∈ count, c < 0 then .error negativeLength
        else .ok (match count with
          | some c => min (saturatingAdd start c) (n + 1)
          | none => n + 1)) := by
  unfold windowEnd
  cases count with
  | none => simp [i64_of_isI64 hn]
  | some c =>
    by_cases hc : c < 0
    · simp [hc]
    · simp [hc, i64_of_isI64 hn]

theorem lt_saturatingAdd {c i : ℤ} (hn : IsI64 (n + 1)) (hstart : IsI64 start) (hc : 0 ≤ c)
    (hi : i ≤ n) : i < min (saturatingAdd start c) (n + 1) ↔ i < start + c := by
  unfold IsI64 at hn hstart
  unfold saturatingAdd
  omega

theorem substr_of_window {s : List α} {last : ℤ} (hlast : last ≤ s.length + 1) :
    (if last ≤ max start 1 then some (.ok [])
      else (slice s (max start 1 - 1) (last - 1)).bind fun l => some (.ok l) :
      Option (Except KernelError (List α))) =
      some (.ok (elementsAt (fun i => start ≤ i ∧ i < last) s)) := by
  split
  · rw [elementsAt_eq_nil fun i _ _ => by omega]
  · rw [slice_places (by omega) (by omega) hlast, Option.bind_some]
    refine congrArg (fun l => some (Except.ok l)) (elementsAt_congr fun i hlo hhi => ?_)
    omega

theorem substr_eq {s : List α} (count : Option ℤ) (hlen : (s.length : ℤ) < 2 ^ 63 - 1)
    (hstart : IsI64 start) : substr s start count = some (substrDenotes s start count) := by
  have hn : IsI64 ((s.length : ℤ) + 1) := by
    unfold IsI64
    omega
  unfold substr substrDenotes
  rw [windowEnd_eq hn]
  by_cases hneg : ∃ c ∈ count, c < 0
  · rw [if_pos hneg, if_pos hneg]
    rfl
  · rw [if_neg hneg, if_neg hneg]
    cases count with
    | none =>
      refine (substr_of_window (Int.le_refl _)).trans (congrArg (fun l => some (Except.ok l)) ?_)
      refine elementsAt_congr fun i _ hhi => ?_
      have hlast : i < (s.length : ℤ) + 1 := by omega
      simp [InWindow, hlast]
    | some c =>
      have hc : 0 ≤ c := by simpa using hneg
      refine (substr_of_window (min_le_right _ _)).trans (congrArg (fun l => some (Except.ok l)) ?_)
      refine elementsAt_congr fun i _ hhi => ?_
      rw [lt_saturatingAdd hn hstart hc hhi]
      simp [InWindow]

theorem overlayTailStart_eq (start count : ℤ) :
    overlayTailStart start count =
      if start ≤ 0 then .error negativeLength
      else if -2 ^ 31 ≤ start + count ∧ start + count < 2 ^ 31 then .ok (start + count)
      else .error outOfInt32 := by
  unfold overlayTailStart
  by_cases htail : -2 ^ 31 ≤ start + count ∧ start + count < 2 ^ 31
  · have h64 : IsI64 (start + count) := by
      unfold IsI64
      omega
    have h32 : inInt32 (start + count) = true := decide_eq_true (by omega)
    simp only [i64_of_isI64 h64, h32, if_true, if_pos htail]
  · have h32 : inInt32 (start + count) = false := decide_eq_false (by omega)
    rw [if_neg htail]
    unfold i64
    by_cases h64 : IsI64 (start + count)
    · simp only [if_pos h64, h32, Bool.false_eq_true, if_false]
    · simp only [if_neg h64]

theorem substrDenotes_before (s : List α) (h : 0 < start) :
    substrDenotes s 1 (some (start - 1)) = .ok (elementsAt (· < start) s) := by
  unfold substrDenotes
  rw [if_neg (by simp; omega)]
  refine congrArg Except.ok (elementsAt_congr fun i hlo _ => ?_)
  simp [InWindow, hlo]

theorem substrDenotes_after (s : List α) (start : ℤ) :
    substrDenotes s start none = .ok (elementsAt (start ≤ ·) s) := by
  unfold substrDenotes
  rw [if_neg (by simp)]
  refine congrArg Except.ok (elementsAt_congr fun i _ _ => ?_)
  simp [InWindow]

variable {r : List α} {count : ℤ}

theorem overlay_of_parts {s before after : List α} {prev tail : ℤ}
    (htail : overlayTailStart start count = .ok tail) (hprev : i64 (start - 1) = some prev)
    (hbefore : substr s 1 (some prev) = some (.ok before))
    (hafter : substr s tail none = some (.ok after)) :
    overlay s r start count = some (.ok (before ++ r ++ after)) := by
  unfold overlay
  simp only [htail, hprev, hbefore, hafter, Option.bind_eq_bind, Option.bind_some, Option.pure_def]

theorem overlay_of_error {s : List α} {e : KernelError} (htail : overlayTailStart start count = .error e) :
    overlay s r start count = some (.error e) := by
  unfold overlay
  simp only [htail, Option.pure_def]

theorem overlay_eq {s : List α} (hlen : (s.length : ℤ) < 2 ^ 63 - 1) (hstart : IsI64 start) :
    overlay s r start count = some (overlayDenotes s r start (some count)) := by
  have htail := overlayTailStart_eq start count
  unfold overlayDenotes
  rw [Option.getD_some]
  by_cases hpos : start ≤ 0
  · rw [if_pos hpos] at htail
    rw [overlay_of_error htail, if_pos hpos]
  · rw [if_neg hpos] at htail
    rw [if_neg hpos]
    by_cases hrange : -2 ^ 31 ≤ start + count ∧ start + count < 2 ^ 31
    · have hprev : IsI64 (start - 1) := by
        unfold IsI64 at hstart ⊢
        omega
      have hone : IsI64 1 := by norm_num [IsI64]
      have hrest : IsI64 (start + count) := by
        unfold IsI64
        omega
      have hbefore := substr_eq (some (start - 1)) hlen hone
      have hafter := substr_eq none hlen hrest
      rw [substrDenotes_before s (by omega)] at hbefore
      rw [substrDenotes_after] at hafter
      rw [if_pos hrange] at htail
      rw [overlay_of_parts htail (i64_of_isI64 hprev) hbefore hafter, if_pos hrange]
    · rw [if_neg hrange] at htail
      rw [overlay_of_error htail, if_neg hrange]

variable {s : List Char}

theorem leftChars_eq (hn : IsI64 n) (hlen : (s.length : ℤ) < 2 ^ 63) :
    leftChars s n = some (leftDenotes s n) := by
  unfold IsI64 at hn
  unfold leftChars leftDenotes
  by_cases hneg : n < 0
  · have hend : max (saturatingAdd s.length n) 0 = max ((s.length : ℤ) + n) 0 := by
      unfold saturatingAdd
      omega
    simp only [if_pos hneg, hend]
    rw [slice_of_le (Int.le_refl 0) (by omega) (by omega), Int.toNat_zero, List.drop_zero]
    have hplaces := elementsAt_lt ((s.length : ℤ) + n + 1) s
    have hmax : ((s.length : ℤ) + n + 1 - 1).toNat = (max ((s.length : ℤ) + n) 0).toNat := by omega
    rw [hmax] at hplaces
    rw [← hplaces]
    exact congrArg some (elementsAt_congr fun i _ _ => by omega)
  · simp only [if_neg hneg]
    rw [slice_of_le (Int.le_refl 0) (by omega) (by omega), Int.toNat_zero, List.drop_zero]
    have hplaces := elementsAt_lt (min n s.length + 1) s
    rw [Int.add_sub_cancel] at hplaces
    rw [← hplaces]
    exact congrArg some (elementsAt_congr fun i _ hhi => by omega)

theorem rightChars_eq (hn : IsI64 n) (hlen : (s.length : ℤ) < 2 ^ 63) :
    rightChars s n = some (rightDenotes s n) := by
  unfold rightChars rightDenotes
  by_cases hneg : n < 0
  · have hstart : min ((i64 (-n)).getD (2 ^ 63 - 1)) (s.length : ℤ) = min (-n) (s.length : ℤ) := by
      unfold i64
      split
      · rfl
      · rename_i h64
        unfold IsI64 at hn h64
        rw [Option.getD_none]
        omega
    simp only [if_pos hneg, hstart, bind, Option.bind]
    rw [slice_of_le (by omega) (by omega) (Int.le_refl _), Int.toNat_natCast, List.take_length]
    have hplaces := elementsAt_ge (min (-n) (s.length : ℤ) + 1) s
    rw [Int.add_sub_cancel] at hplaces
    rw [← hplaces]
    exact congrArg some (elementsAt_congr fun i _ hhi => by omega)
  · have h64 : IsI64 ((s.length : ℤ) - n) := by
      unfold IsI64 at hn ⊢
      omega
    simp only [if_neg hneg, i64_of_isI64 h64, Option.map_some, bind, Option.bind]
    rw [slice_of_le (by omega) (by omega) (Int.le_refl _), Int.toNat_natCast, List.take_length]
    have hplaces := elementsAt_ge (max ((s.length : ℤ) - n) 0 + 1) s
    rw [Int.add_sub_cancel] at hplaces
    rw [← hplaces]
    exact congrArg some (elementsAt_congr fun i hlo _ => by omega)

theorem utf8Len_append (s t : List Char) : utf8Len (s ++ t) = utf8Len s + utf8Len t := by
  simp [utf8Len]

theorem utf8Len_rounds (s : List Char) (c : ℕ) :
    utf8Len (List.replicate c s).flatten = c * utf8Len s := by
  induction c with
  | zero => simp [utf8Len]
  | succ c ih =>
    rw [List.replicate_succ, List.flatten_cons, utf8Len_append, ih]
    push_cast
    ring

theorem utf8Len_nonneg (s : List Char) : 0 ≤ utf8Len s := Int.natCast_nonneg _

/-- A character takes one byte to four. -/
theorem utf8Len_le (s : List Char) : utf8Len s ≤ 4 * s.length := by
  induction s with
  | nil => simp [utf8Len]
  | cons c s ih =>
    have hc := Char.utf8Size_le_four c
    have hcons := utf8Len_append [c] s
    have hone : utf8Len [c] = c.utf8Size := by simp [utf8Len]
    rw [List.singleton_append, hone] at hcons
    rw [List.length_cons]
    omega

theorem utf8Len_pos (h : s ≠ []) : 0 < utf8Len s := by
  cases s with
  | nil => exact absurd rfl h
  | cons c s =>
    have hc := Char.utf8Size_pos c
    have hcons := utf8Len_append [c] s
    have hone : utf8Len [c] = c.utf8Size := by simp [utf8Len]
    have hs := utf8Len_nonneg s
    rw [List.singleton_append, hone] at hcons
    omega

theorem rounds_le (room : ℤ) {cycles bytes : ℤ} (hcycles : 0 ≤ cycles) (hbytes : 0 < bytes)
    (h : cycles * bytes ≤ room) : cycles ≤ room.tdiv bytes := by
  have hroom : 0 ≤ room := (Int.mul_nonneg hcycles (Int.le_of_lt hbytes)).trans h
  rw [Int.tdiv_eq_ediv_of_nonneg hroom]
  exact Int.le_ediv_of_mul_le hbytes h

/-- What the bound on the rounds leaves of them. -/
theorem rounds_bounded {room cycles bytes : ℤ} (hcycles : 0 ≤ cycles) (hbytes : 0 < bytes)
    (h : cycles ≤ room.tdiv bytes) : cycles * bytes ≤ max room 0 := by
  by_cases hroom : 0 ≤ room
  · rw [Int.tdiv_eq_ediv_of_nonneg hroom] at h
    have hmul := Int.mul_le_of_le_ediv hbytes h
    omega
  · have hquot : room.tdiv bytes ≤ 0 := by
      have hneg := Int.tdiv_nonneg (by omega : 0 ≤ -room) (Int.le_of_lt hbytes)
      rw [Int.neg_tdiv] at hneg
      omega
    have hzero : cycles = 0 := by omega
    rw [hzero, Int.zero_mul]
    omega

variable {fill : List Char} {need : ℤ}

/-- The whole rounds of the fill and the part after them. -/
theorem rounds_eq (hfill : fill ≠ []) (h : 0 ≤ need) :
    ∃ c : ℕ, need.tdiv fill.length = c ∧
      (List.replicate c fill).flatten ++ textPrefix fill (need.tmod fill.length) =
        cycled fill need.toNat := by
  obtain ⟨m, rfl⟩ := Int.eq_ofNat_of_zero_le h
  have hpos : 0 < fill.length := List.length_pos_iff.mpr hfill
  have hrest : (m : ℤ).tmod fill.length = (m % fill.length : ℕ) := by
    rw [Int.tmod_eq_emod_of_nonneg h]
    rfl
  refine ⟨m / fill.length, ?_, ?_⟩
  · rw [Int.tdiv_eq_ediv_of_nonneg h]
    rfl
  · rw [hrest, textPrefix, Int.toNat_natCast, Int.toNat_natCast,
      ← cycled_rounds fill _ (Nat.le_of_lt (Nat.mod_lt m hpos)), Nat.div_add_mod']

theorem utf8Len_textPrefix (s : List Char) {chars : ℤ} (h0 : 0 ≤ chars)
    (h : chars ≤ MAX_RESULT_CHARS) :
    utf8Len (textPrefix s chars) ≤ 4 * MAX_RESULT_CHARS := by
  have hbytes := utf8Len_le (textPrefix s chars)
  have hlen : (textPrefix s chars).length ≤ chars.toNat := List.length_take_le _ _
  omega

/-- Padding that takes rounds of the fill. -/
theorem padding_rounds {size : ℤ} {tail : List Char} {c : ℕ} (hneed : 0 < need)
    (hfill : fill ≠ []) (hc : need.tdiv fill.length = c) (htail : textPrefix fill (need.tmod fill.length) = tail)
    (hroom : IsI64 (MAX_RESULT_CHARS - size - utf8Len tail)) :
    padding size need fill =
      some (if (c : ℤ) > (MAX_RESULT_CHARS - size - utf8Len tail).tdiv (utf8Len fill) then
        .error lengthTooLarge else .ok (c, tail)) := by
  unfold padding
  rw [if_pos ⟨hneed, hfill⟩]
  simp only [hc, htail, i64_of_isI64 hroom, Option.bind_eq_bind, Option.bind_some, Option.pure_def]
  split <;> rfl

/-- The padding of a kept part of so many bytes, or that there is no room for it. -/
theorem padding_eq {size : ℤ} (hsize : 0 ≤ size)
    (hbound : size ≤ 4 * MAX_RESULT_CHARS) (hneed : 0 ≤ need) (hmax : need ≤ MAX_RESULT_CHARS) :
    padding size need fill = some (.error lengthTooLarge) ∧
        MAX_RESULT_CHARS < size + utf8Len (cycled fill need.toNat) ∨
      ∃ (c : ℕ) (tail : List Char), padding size need fill = some (.ok (c, tail)) ∧
        (List.replicate c fill).flatten ++ tail = cycled fill need.toNat ∧
        size + utf8Len (cycled fill need.toNat) ≤ 8 * MAX_RESULT_CHARS := by
  by_cases hpads : need > 0 ∧ fill ≠ []
  · obtain ⟨c, hc, hrounds⟩ := rounds_eq hpads.2 hneed
    have hpos := utf8Len_pos hpads.2
    obtain ⟨tail, htail⟩ : ∃ tail, textPrefix fill (need.tmod fill.length) = tail := ⟨_, rfl⟩
    have hrest : 0 ≤ need.tmod fill.length := Int.tmod_nonneg _ hneed
    have hle : need.tmod fill.length ≤ need := by
      rw [Int.tmod_eq_emod_of_nonneg hneed]
      have hpos : (0 : ℤ) < fill.length := by exact_mod_cast List.length_pos_iff.mpr hpads.2
      have hq := Int.mul_ediv_add_emod need fill.length
      have hquot := Int.mul_nonneg (Int.le_of_lt hpos) (Int.ediv_nonneg hneed (Int.le_of_lt hpos))
      omega
    have hmost := utf8Len_textPrefix fill hrest (hle.trans hmax)
    have hleast := utf8Len_nonneg tail
    rw [htail] at hrounds hmost
    have hbytes : utf8Len (cycled fill need.toNat) = c * utf8Len fill + utf8Len tail := by
      rw [← hrounds, utf8Len_append, utf8Len_rounds]
    have hroom : IsI64 (MAX_RESULT_CHARS - size - utf8Len tail) := by
      unfold IsI64 MAX_RESULT_CHARS at *
      omega
    have heq := padding_rounds hpads.1 hpads.2 hc htail hroom
    by_cases hover : (c : ℤ) > (MAX_RESULT_CHARS - size - utf8Len tail).tdiv (utf8Len fill)
    · rw [if_pos hover] at heq
      refine .inl ⟨heq, ?_⟩
      by_contra hfits
      have hle := rounds_le (MAX_RESULT_CHARS - size - utf8Len tail) (Int.natCast_nonneg c) hpos
        (by omega)
      omega
    · rw [if_neg hover] at heq
      refine .inr ⟨c, tail, heq, hrounds, ?_⟩
      have hle := rounds_bounded (Int.natCast_nonneg c) hpos (not_lt.mp hover)
      unfold MAX_RESULT_CHARS at *
      omega
  · have hnone : cycled fill need.toNat = [] := by
      by_cases hzero : need = 0
      · rw [hzero]
        rfl
      · have hnil : fill = [] := by
          by_contra hne
          exact hpads ⟨by omega, hne⟩
        rw [hnil, cycled_nil]
    refine .inr ⟨0, [], ?_, by rw [hnone]; rfl, ?_⟩
    · unfold padding
      rw [if_neg hpads]
      rfl
    · rw [hnone]
      unfold MAX_RESULT_CHARS at *
      simp only [utf8Len, List.map_nil, List.sum_nil]
      omega

theorem bind_of_some {β γ : Type} {x : Option β} {a : β} {f : β → Option γ} (h : x = some a) :
    x.bind f = f a := by
  rw [h, Option.bind_some]

/-- What follows once the padding is known. -/
theorem padChars_of_padding {tail : List Char} {len : ℤ} {c : ℕ} (left : Bool)
    (hpos : 0 < len) (hmax : len ≤ MAX_RESULT_CHARS) (hneed : IsI64 (len - (textPrefix s len).length))
    (hpad : padding (utf8Len (textPrefix s len)) (len - (textPrefix s len).length) fill =
      some (.ok (c, tail)))
    (hsize : IsI64 (utf8Len (textPrefix s len) +
      utf8Len ((List.replicate c fill).flatten ++ tail))) :
    padChars s len fill left =
      some (padFilled (textPrefix s len) ((List.replicate c fill).flatten ++ tail)
        (utf8Len (textPrefix s len) + utf8Len ((List.replicate c fill).flatten ++ tail)) left) := by
  rw [utf8Len_append, utf8Len_rounds, ← add_assoc] at hsize ⊢
  unfold padChars
  rw [if_neg (by omega), if_neg (by omega)]
  refine (bind_of_some (i64_of_isI64 hneed)).trans ((bind_of_some hpad).trans ?_)
  refine (bind_of_some (i64_of_isI64 hsize)).trans ?_
  rw [Int.toNat_natCast]
  rfl

theorem padChars_of_error {len : ℤ} {e : KernelError} (left : Bool)
    (hpos : 0 < len) (hmax : len ≤ MAX_RESULT_CHARS) (hneed : IsI64 (len - (textPrefix s len).length))
    (hpad : padding (utf8Len (textPrefix s len)) (len - (textPrefix s len).length) fill =
      some (.error e)) :
    padChars s len fill left = some (.error e) := by
  unfold padChars
  rw [if_neg (by omega), if_neg (by omega)]
  simp only [i64_of_isI64 hneed, hpad, Option.bind_eq_bind, Option.bind_some, Option.pure_def]

theorem padChars_eq (s : List Char) (len : ℤ) (fill : List Char) (left : Bool) :
    padChars s len fill left = some (padDenotes s len fill left) := by
  unfold padDenotes
  by_cases hmax : len > MAX_RESULT_CHARS
  · have hpos : ¬ len ≤ 0 := by
      unfold MAX_RESULT_CHARS at hmax
      omega
    unfold padChars
    simp only [if_neg hpos, hmax, true_or, if_true, Option.pure_def]
  · by_cases hpos : len ≤ 0
    · unfold padChars
      simp only [if_neg hmax, if_pos hpos, Option.pure_def]
    · have hkept : elementsAt (· ≤ len) s = textPrefix s len := by
        have hplaces := elementsAt_lt (len + 1) s
        rw [Int.add_sub_cancel] at hplaces
        rw [textPrefix, ← hplaces]
        exact elementsAt_congr fun i _ _ => by omega
      have hlength : (textPrefix s len).length = min len.toNat s.length := List.length_take
      have hneed : (len - (textPrefix s len).length).toNat = (len - s.length).toNat := by omega
      have hneed0 : 0 ≤ len - (textPrefix s len).length := by omega
      have hneedMax : len - (textPrefix s len).length ≤ MAX_RESULT_CHARS := by omega
      have hneed64 : IsI64 (len - (textPrefix s len).length) := by
        unfold IsI64 MAX_RESULT_CHARS at *
        omega
      have hsize := utf8Len_nonneg (textPrefix s len)
      have hbound := utf8Len_textPrefix s (by omega) (not_lt.mp hmax)
      simp only [if_neg hpos, hkept, hmax, false_or]
      rw [← hneed]
      rcases padding_eq hsize hbound hneed0 hneedMax with
        ⟨herror, hover⟩ | ⟨c, tail, hpad, hcycled, hbytes⟩
      · rw [padChars_of_error left (by omega) (by omega) hneed64 herror, if_pos hover]
      · rw [← hcycled] at hbytes ⊢
        have hsize64 : IsI64 (utf8Len (textPrefix s len) +
            utf8Len ((List.replicate c fill).flatten ++ tail)) := by
          have hfilled := utf8Len_nonneg ((List.replicate c fill).flatten ++ tail)
          unfold IsI64 MAX_RESULT_CHARS at *
          omega
        rw [padChars_of_padding left (by omega) (by omega) hneed64 hpad hsize64, padFilled]

end Jed.Kernels

/-!
## The kernels

Codecs and quoting invert and slices denote what their places say, for every input.
-/

namespace Jed.Kernels

open Sql Places

/-- A format of `encode` and `decode`, in letters of either case. -/
def IsFormat (format : Bytes) : Prop := format.map lower ∈ [text "hex", text "base64", text "escape"]

instance (format : Bytes) : Decidable (IsFormat format) := inferInstanceAs (Decidable (_ ∈ _))

/-- The length of a slice that a program can hold. -/
def Holdable {α : Type} (s : List α) : Prop := (s.length : Int) < 2 ^ 63 - 1

/-- Every format encodes every value, and decoding gives the value back. -/
theorem encodeBytea_total (bytes : Bytes) {format : Bytes} (h : IsFormat format) :
    ∃ s, encodeBytea bytes format = .ok s ∧ decodeText s format = .ok bytes := by
  have hok : ∃ s, encodeBytea bytes format = .ok s := by
    rw [IsFormat, List.mem_cons, List.mem_cons, List.mem_singleton] at h
    unfold encodeBytea
    by_cases hhex : format.map lower = text "hex"
    · exact ⟨_, if_pos hhex⟩
    · rw [if_neg hhex]
      by_cases hescape : format.map lower = text "escape"
      · exact ⟨_, if_pos hescape⟩
      · rw [if_neg hescape]
        rcases h with h | h | h
        · exact absurd h hhex
        · exact ⟨_, if_pos h⟩
        · exact absurd h hescape
  obtain ⟨s, hs⟩ := hok
  exact ⟨s, hs, decodeText_encodeBytea hs⟩

theorem overlayDenotes_getD {α : Type} (s r : List α) (start : ℤ) (count : Option ℤ) :
    overlayDenotes s r start (some (count.getD r.length)) = overlayDenotes s r start count := by
  unfold overlayDenotes
  rw [Option.getD_some]

/-- Decoding inverts encoding; a quoted literal without a backslash is one string token, and a
    quoted identifier that the lexer takes one identifier token; slices, splices, ends and padding
    are what the places of characters or bytes in the unbounded integers say. -/
theorem kernels_denote (bytes format : Bytes) (s r : List Char) (b rb : Bytes)
    (fill : Option (List Char)) (start : ℤ) (count : Option ℤ) :
    (IsFormat format → ∃ t, encodeBytea bytes format = .ok t ∧ decodeText t format = .ok bytes) ∧
      ((0 : UInt8) ∉ bytes → ascii '\\' ∉ bytes →
        lex (quoteLiteral bytes) = .ok [.str bytes, .eof]) ∧
      ((0 : UInt8) ∉ bytes → bytes ≠ [] → bytes.length ≤ MAX_IDENTIFIER_LENGTH →
        lex (quoteIdent bytes) = .ok [identToken bytes, .eof]) ∧
      (IsI64 start → (∀ c ∈ count, IsI64 c) → Holdable s → Holdable b →
        substrChars s start count = some (substrDenotes s start count) ∧
        substrBytes b start count = some (substrDenotes b start count) ∧
        overlayChars s r start count = some (overlayDenotes s r start count) ∧
        overlayBytes b rb start count = some (overlayDenotes b rb start count) ∧
        leftChars s start = some (leftDenotes s start) ∧
        rightChars s start = some (rightDenotes s start) ∧
        lpad s start fill = some (padDenotes s start (fill.getD [' ']) true) ∧
        rpad s start fill = some (padDenotes s start (fill.getD [' ']) false)) := by
  refine ⟨encodeBytea_total bytes, lex_quoteLiteral, lex_quoteIdent, fun hstart _ hs hb => ?_⟩
  have hlen : (s.length : ℤ) < 2 ^ 63 := by
    unfold Holdable at hs
    omega
  refine ⟨substr_eq count hs hstart, substr_eq count hb hstart, ?_, ?_, leftChars_eq hstart hlen,
    rightChars_eq hstart hlen, padChars_eq _ _ _ _, padChars_eq _ _ _ _⟩
  · rw [overlayChars, overlay_eq hs hstart, overlayDenotes_getD]
  · rw [overlayBytes, overlay_eq hb hstart, overlayDenotes_getD]

/-- The last characters of a text, their count being the greatest there is. -/
theorem kernels_denote_last :
    (∃ t, encodeBytea [0, 92, 255] (text "Base64") = .ok t ∧
        decodeText t (text "Base64") = .ok [0, 92, 255]) ∧
      lex (quoteIdent [ascii 'a', ascii '"']) = .ok [.quotedIdent [ascii 'a', ascii '"'], .eof] ∧
      substrChars ['a', 'ß', 'c'] 2 (some 9223372036854775807) = some (.ok ['ß', 'c']) := by
  have hstart : IsI64 2 := by norm_num [IsI64]
  have hcount : ∀ c ∈ some (9223372036854775807 : ℤ), IsI64 c := by
    intro c hc
    rw [← Option.some.inj hc]
    norm_num [IsI64]
  have hall := kernels_denote [0, 92, 255] (text "Base64") ['a', 'ß', 'c'] [] [] [] none 2
    (some 9223372036854775807)
  have hquote := kernels_denote [ascii 'a', ascii '"'] [] [] [] [] [] none 1 none
  refine ⟨hall.1 (by decide +kernel),
    hquote.2.2.1 (by decide) (List.cons_ne_nil _ _) (by decide), ?_⟩
  exact (hall.2.2.2 hstart hcount (by norm_num [Holdable]) (by norm_num [Holdable])).1

/-- The literal of a backslash is an escape string, which the lexer reads as a word and a string; the quoted
identifiers of an empty text and of one of 64 bytes are refused. -/
theorem quoted_not_one_token :
    (¬ ∃ t, lex (quoteLiteral [ascii '\\']) = .ok [.str t, .eof]) ∧
      (¬ ∃ token, lex (quoteIdent []) = .ok [token, .eof]) ∧
      ¬ ∃ token, lex (quoteIdent (List.replicate 64 (ascii 'A'))) = .ok [token, .eof] := by
  have hlexed : lex (quoteLiteral [ascii '\\']) =
        .ok [.word [ascii 'e'], .str [ascii '\\', ascii '\\'], .eof] ∧
      (lex (quoteIdent [])).toOption = none ∧
      (lex (quoteIdent (List.replicate 64 (ascii 'A')))).toOption = none := by decide +kernel
  obtain ⟨htwo, hempty, hlong⟩ := hlexed
  refine ⟨?_, ?_, ?_⟩
  · rintro ⟨t, ht⟩
    rw [htwo] at ht
    cases ht
  · rintro ⟨token, ht⟩
    rw [ht] at hempty
    cases hempty
  · rintro ⟨token, ht⟩
    rw [ht] at hlong
    cases hlong

end Jed.Kernels
