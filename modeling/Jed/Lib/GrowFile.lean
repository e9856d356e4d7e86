import Mathlib.Data.List.Basic
import Mathlib.Tactic.Common

/-!
# Growable files

A file as the list of what it holds, cut or grown with a filler, read short at its end and written past
it.
-/

namespace Jed.GrowFile

variable {α : Type} (z : α)

/-- What is at a place, the filler past the end. -/
def at_ (f : List α) (i : ℕ) : α := f.getD i z

/-- At most `n` from `off` on. -/
def read (f : List α) (off n : ℕ) : List α := (f.drop off).take n

/-- The file grown to `n` at least. -/
def pad (f : List α) (n : ℕ) : List α := f ++ List.replicate (n - f.length) z

/-- The file cut or grown to `n`. -/
def resize (f : List α) (n : ℕ) : List α := pad z (f.take n) n

/-- What is at `off` replaced, within the file. -/
def splice (f : List α) (off : ℕ) (bs : List α) : List α :=
  f.take off ++ (bs ++ f.drop (off + bs.length))

/-- A write, the file grown as needed. -/
def write (f : List α) (off : ℕ) (bs : List α) : List α := splice (pad z f (off + bs.length)) off bs

variable {z} {f g : List α} {off n i : ℕ} {bs : List α}

theorem at_of_lt (h : i < f.length) : f[i]? = some (at_ z f i) := by
  rw [at_, List.getD_eq_getElem?_getD, List.getElem?_eq_getElem h]
  rfl

theorem at_of_ge (h : f.length ≤ i) : at_ z f i = z := by
  rw [at_, List.getD_eq_getElem?_getD, List.getElem?_eq_none h]
  rfl

theorem ext (hlen : f.length = g.length) (h : ∀ i, i < f.length → at_ z f i = at_ z g i) : f = g := by
  refine List.ext_getElem? fun i => ?_
  rcases Nat.lt_or_ge i f.length with hi | hi
  · rw [at_of_lt (z := z) hi, at_of_lt (z := z) (hlen ▸ hi), h i hi]
  · rw [List.getElem?_eq_none hi, List.getElem?_eq_none (hlen ▸ hi)]

theorem at_replicate (n i : ℕ) : at_ z (List.replicate n z) i = z := by
  rw [at_, List.getD_eq_getElem?_getD, List.getElem?_replicate]
  split <;> rfl

theorem at_append_left (h : i < f.length) : at_ z (f ++ g) i = at_ z f i := by
  rw [at_, at_, List.getD_eq_getElem?_getD, List.getD_eq_getElem?_getD,
    List.getElem?_append_left h]

theorem at_append_right (h : f.length ≤ i) : at_ z (f ++ g) i = at_ z g (i - f.length) := by
  rw [at_, at_, List.getD_eq_getElem?_getD, List.getD_eq_getElem?_getD,
    List.getElem?_append_right h]

theorem at_take (h : i < n) : at_ z (f.take n) i = at_ z f i := by
  rw [at_, at_, List.getD_eq_getElem?_getD, List.getD_eq_getElem?_getD, List.getElem?_take_of_lt h]

theorem at_drop : at_ z (f.drop n) i = at_ z f (n + i) := by
  rw [at_, at_, List.getD_eq_getElem?_getD, List.getD_eq_getElem?_getD, List.getElem?_drop]

theorem length_read : (read f off n).length = min n (f.length - off) := by
  rw [read, List.length_take, List.length_drop]

theorem at_read (h : i < n) : at_ z (read f off n) i = at_ z f (off + i) := by
  rw [read, at_take h, at_drop]

theorem length_pad : (pad z f n).length = max f.length n := by
  rw [pad, List.length_append, List.length_replicate]
  omega

theorem at_pad : at_ z (pad z f n) i = at_ z f i := by
  rcases Nat.lt_or_ge i f.length with h | h
  · rw [pad, at_append_left h]
  · rw [pad, at_append_right h, at_replicate, at_of_ge h]

theorem length_resize : (resize z f n).length = n := by
  rw [resize, length_pad, List.length_take]
  omega

theorem at_resize : at_ z (resize z f n) i = if i < n then at_ z f i else z := by
  rw [resize, at_pad]
  split
  next h => exact at_take h
  next h =>
    rw [at_of_ge]
    rw [List.length_take]
    omega

theorem length_splice (h : off + bs.length ≤ f.length) : (splice f off bs).length = f.length := by
  simp only [splice, List.length_append, List.length_take, List.length_drop]
  omega

theorem at_splice (h : off + bs.length ≤ f.length) :
    at_ z (splice f off bs) i =
      if off ≤ i ∧ i < off + bs.length then at_ z bs (i - off) else at_ z f i := by
  have htake : (f.take off).length = off := by
    rw [List.length_take]
    omega
  rw [splice]
  rcases Nat.lt_or_ge i off with hi | hi
  · rw [at_append_left (by omega), at_take hi, if_neg (by omega)]
  · rw [at_append_right (by omega), htake]
    rcases Nat.lt_or_ge (i - off) bs.length with hb | hb
    · rw [at_append_left hb, if_pos (by omega)]
    · rw [at_append_right hb, at_drop, if_neg (by omega),
        show off + bs.length + (i - off - bs.length) = i by omega]

theorem length_write : (write z f off bs).length = max f.length (off + bs.length) := by
  rw [write, length_splice (by rw [length_pad]; omega), length_pad]

theorem at_write : at_ z (write z f off bs) i =
    if off ≤ i ∧ i < off + bs.length then at_ z bs (i - off) else at_ z f i := by
  rw [write, at_splice (by rw [length_pad]; omega), at_pad]

theorem at_set {k : ℕ} {x : α} (h : k < f.length) :
    at_ z (f.set k x) i = if i = k then x else at_ z f i := by
  rw [at_, at_, List.getD_eq_getElem?_getD, List.getD_eq_getElem?_getD, List.getElem?_set]
  by_cases hik : i = k
  · rw [if_pos hik.symm, if_pos hik, if_pos h]
    rfl
  · rw [if_neg (Ne.symm hik), if_neg hik]

theorem read_write_apart (hfull : off + n ≤ f.length) {off' : ℕ}
    (h : off + n ≤ off' ∨ off' + bs.length ≤ off) :
    read (write z f off' bs) off n = read f off n := by
  refine ext (z := z) ?_ fun i hi => ?_
  · rw [length_read, length_read, length_write]
    omega
  · rw [length_read] at hi
    rw [at_read (by omega), at_read (by omega), at_write, if_neg (by omega)]

theorem read_write_same (h : bs.length = n) : read (write z f off bs) off n = bs := by
  subst h
  refine ext (z := z) ?_ fun i hi => ?_
  · rw [length_read, length_write]
    omega
  · rw [length_read] at hi
    rw [at_read (by omega), at_write, if_pos (by omega), Nat.add_sub_cancel_left]

theorem read_resize (hn : off + n ≤ i) (hfull : off + n ≤ f.length) :
    read (resize z f i) off n = read f off n := by
  refine ext (z := z) ?_ fun k hk => ?_
  · rw [length_read, length_read, length_resize]
    omega
  · rw [length_read] at hk
    rw [at_read (by omega), at_read (by omega), at_resize, if_pos (by omega)]

end Jed.GrowFile
