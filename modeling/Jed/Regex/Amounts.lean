import Jed.Regex.Compile
import Mathlib.Tactic.Linarith
import Mathlib.Tactic.Ring

/-!
# The amounts of a tree

How many instructions and how many calls of `Compiler::emit` a tree takes with its counted repeats
unrolled, and when the calls are in proportion to the instructions: a copy of a body that emits nothing
is a call that no instruction pays for.
-/

namespace Jed.Regex

mutual
/-- The nodes of a tree. -/
def Node.nodes : Node → ℕ
  | .concat nodes => 1 + nodesAll nodes
  | .alt a b => 1 + a.nodes + b.nodes
  | .star sub _ | .plus sub _ | .quest sub _ | .repeat_ sub _ _ _ | .group sub _ => 1 + sub.nodes
  | .empty | .char _ | .any | .class_ _ | .anchorStart | .anchorEnd | .lineStart | .lineEnd => 1
def nodesAll : List Node → ℕ
  | [] => 0
  | n :: ns => n.nodes + nodesAll ns
end

/-- The instructions of a counted repeat over `size` after its mandatory copies. -/
def tailSize (size min : ℕ) : Option ℕ → ℕ
  | none => size + 2
  | some m => (m - min) * (size + 1)

mutual
/-- The instructions of a tree, counted repeats unrolled. -/
def Node.size : Node → ℕ
  | .empty => 0
  | .concat nodes => sizeAll nodes
  | .alt a b => a.size + b.size + 2
  | .star sub _ => sub.size + 2
  | .plus sub _ | .quest sub _ => sub.size + 1
  | .repeat_ sub min max _ => min * sub.size + tailSize sub.size min max
  | .group sub none => sub.size
  | .group sub (some _) => sub.size + 2
  | .char _ | .any | .class_ _ | .anchorStart | .anchorEnd | .lineStart | .lineEnd => 1
def sizeAll : List Node → ℕ
  | [] => 0
  | n :: ns => n.size + sizeAll ns
end

/-- The calls of a `Star` besides its body's. -/
def starCalls (nullableSub : Bool) : ℕ := if nullableSub then 3 else 1

/-- The calls of a counted repeat over `calls` after its mandatory copies. -/
def tailCalls (calls : ℕ) (nullableSub : Bool) (min : ℕ) : Option ℕ → ℕ
  | none => calls + starCalls nullableSub
  | some m => (m - min) * (calls + 1)

mutual
/-- The calls of `Compiler::emit` on a tree, counted repeats unrolled. -/
def Node.unrolled : Node → ℕ
  | .concat nodes => unrolledAll nodes + 1
  | .alt a b => a.unrolled + b.unrolled + 1
  | .star sub _ => sub.unrolled + starCalls (nullable sub)
  | .plus sub _ | .quest sub _ | .group sub _ => sub.unrolled + 1
  | .repeat_ sub min max _ =>
    min * sub.unrolled + tailCalls sub.unrolled (nullable sub) min max + 1
  | .empty | .char _ | .any | .class_ _ | .anchorStart | .anchorEnd | .lineStart | .lineEnd => 1
def unrolledAll : List Node → ℕ
  | [] => 0
  | n :: ns => n.unrolled + unrolledAll ns
end

/-- What is reached after `k` instructions, where `room` can be pushed. -/
def after (k : ℕ) (reached : ℕ → Bool) (room : ℕ) : Bool := decide (room < k) || reached (room - k)

mutual
/-- No counted repeat that is reached while `room` instructions can be pushed makes a mandatory copy of a
    body that emits no instruction, `{1}` apart. -/
def Node.paid : Node → ℕ → Bool
  | .concat nodes => paidAll nodes
  | .alt a b => fun room => after 1 a.paid room && after (a.size + 2) b.paid room
  | .star sub _ | .quest sub _ | .group sub (some _) => after 1 sub.paid
  | .plus sub _ | .group sub none => sub.paid
  | .repeat_ sub min max _ => fun room =>
    if min = 0 then decide (max = some 0) || after 1 sub.paid room
    else sub.paid room && (decide (0 < sub.size) || (decide (min = 1) && decide (max = some 1)))
  | .empty | .char _ | .any | .class_ _ | .anchorStart | .anchorEnd | .lineStart | .lineEnd => fun _ => true
def paidAll : List Node → ℕ → Bool
  | [] => fun _ => true
  | n :: ns => fun room => n.paid room && after n.size (paidAll ns) room
end

theorem after_eq {k room : ℕ} {reached : ℕ → Bool} :
    after k reached room = true ↔ (k ≤ room → reached (room - k) = true) := by
  rw [after, Bool.or_eq_true, decide_eq_true_eq, ← Nat.not_le]
  exact (Decidable.imp_iff_not_or).symm

theorem after_mono {k room room' : ℕ} {reached : ℕ → Bool} (h : after k reached room = true)
    (hle : room' ≤ room) (hmono : ∀ {r r'}, reached r = true → r' ≤ r → reached r' = true) :
    after k reached room' = true := by
  rw [after_eq] at h ⊢
  exact fun hk => hmono (h (Nat.le_trans hk hle)) (Nat.sub_le_sub_right hle k)

theorem paid_repeat {sub : Node} {min : ℕ} {max : Option ℕ} {greedy : Bool} {room : ℕ} :
    (Node.repeat_ sub min max greedy).paid room = true ↔
      if min = 0 then max = some 0 ∨ (1 ≤ room → sub.paid (room - 1) = true)
      else sub.paid room = true ∧ (0 < sub.size ∨ min = 1 ∧ max = some 1) := by
  rw [Node.paid]
  split <;> simp only [Bool.and_eq_true, Bool.or_eq_true, decide_eq_true_eq, after_eq]

mutual
/-- In less room no more is reached. -/
theorem paid_mono : ∀ {n : Node} {room room' : ℕ}, n.paid room = true → room' ≤ room → n.paid room' = true
  | .empty, _, _, _, _ | .char _, _, _, _, _ | .any, _, _, _, _ | .class_ _, _, _, _, _
  | .anchorStart, _, _, _, _ | .anchorEnd, _, _, _, _ | .lineStart, _, _, _, _ | .lineEnd, _, _, _, _ => rfl
  | .concat nodes, _, _, h, hle => by
    rw [Node.paid] at h ⊢
    exact paidAll_mono h hle
  | .alt a b, _, _, h, hle => by
    simp only [Node.paid, Bool.and_eq_true] at h ⊢
    exact ⟨after_mono h.1 hle paid_mono, after_mono h.2 hle paid_mono⟩
  | .star sub _, _, _, h, hle | .quest sub _, _, _, h, hle | .group sub (some _), _, _, h, hle => by
    rw [Node.paid] at h ⊢
    exact after_mono h hle paid_mono
  | .plus sub _, _, _, h, hle | .group sub none, _, _, h, hle => by
    rw [Node.paid] at h ⊢
    exact paid_mono h hle
  | .repeat_ sub min max _, _, _, h, hle => by
    simp only [Node.paid] at h ⊢
    split at h
    case isTrue hmin =>
      rw [Bool.or_eq_true] at h
      rw [if_pos hmin, Bool.or_eq_true]
      exact h.imp_right fun h => after_mono h hle paid_mono
    case isFalse hmin =>
      rw [Bool.and_eq_true] at h
      rw [if_neg hmin, Bool.and_eq_true]
      exact ⟨paid_mono h.1 hle, h.2⟩
theorem paidAll_mono : ∀ {ns : List Node} {room room' : ℕ}, paidAll ns room = true → room' ≤ room →
    paidAll ns room' = true
  | [], _, _, _, _ => rfl
  | n :: ns, _, _, h, hle => by
    simp only [paidAll, Bool.and_eq_true] at h ⊢
    exact ⟨paid_mono h.1 hle, after_mono h.2 hle paidAll_mono⟩
end

theorem Node.nodes_pos (n : Node) : 0 < n.nodes := by
  cases n <;> rw [Node.nodes] <;> omega

/-- At most `n` calls where nothing is emitted, else at most `n` for each instruction and one more. -/
def Proportion (n size calls : ℕ) : Prop :=
  (size = 0 → calls ≤ n) ∧ (0 < size → calls ≤ n * size + 1)

namespace Proportion

variable {n m s t u v : ℕ}

theorem le (h : Proportion n s u) (hn : 0 < n) : u ≤ n * (s + 1) := by
  rcases Nat.eq_zero_or_pos s with hs | hs
  · rw [hs]
    exact Nat.le_trans (h.1 hs) (by omega)
  · have := h.2 hs
    rw [Nat.mul_succ]
    omega

theorem le_mul (h : Proportion n s u) (hs : 0 < s) : u ≤ (n + 1) * s := by
  have := h.2 hs
  rw [Nat.succ_mul]
  omega

theorem one : Proportion 1 1 1 := ⟨fun _ => Nat.le_refl _, fun _ => by omega⟩

/-- Trees one after the other. -/
theorem append (h : Proportion n s u) (h' : Proportion m t v) (hn : 0 < n) :
    Proportion (n + m) (s + t) (u + v) := by
  have hmul : (n + m) * (s + t) = n * s + n * t + (m * s + m * t) := by ring
  refine ⟨fun hzero => ?_, fun hpos => ?_⟩
  · have hu := h.1 (by omega)
    have hv := h'.1 (by omega)
    omega
  · rcases Nat.eq_zero_or_pos s with hs | hs <;> rcases Nat.eq_zero_or_pos t with ht | ht
    · omega
    · have hu := h.1 hs
      have hv := h'.2 ht
      have hle : n ≤ n * t := Nat.le_mul_of_pos_right n ht
      omega
    · have hu := h.2 hs
      have hv := h'.1 ht
      have hle : m ≤ m * s := Nat.le_mul_of_pos_right m hs
      omega
    · have hu := h.2 hs
      have hv := h'.2 ht
      have hle : 0 < n * t := Nat.mul_pos hn ht
      omega

theorem call (h : Proportion n s u) : Proportion (1 + n) s (u + 1) := by
  refine ⟨fun hs => ?_, fun hs => ?_⟩
  · have := h.1 hs
    omega
  · have := h.2 hs
    rw [Nat.add_mul]
    omega

theorem more {k c : ℕ} (h : Proportion n s u) (hn : 0 < n) (hk : 0 < k) (hc : c ≤ k + 1) :
    Proportion (1 + n) (s + k) (u + c) := by
  refine ⟨fun hs => by omega, fun _ => ?_⟩
  have hu := h.le hn
  have hle : n ≤ n * k := Nat.le_mul_of_pos_right n hk
  have hmul : (1 + n) * (s + k) = s + k + (n * s + n * k) := by ring
  rw [Nat.mul_succ] at hu
  omega

/-- The mandatory copies of a counted repeat, and its tail. -/
theorem copies {tail calls : ℕ} (min : ℕ) (h : Proportion n s u) (hpaid : 0 < s ∨ min = 0)
    (htail : calls ≤ (n + 1) * tail) :
    min * u + calls ≤ (n + 1) * (min * s + tail) := by
  have hcopies : min * u ≤ (n + 1) * (min * s) := by
    rcases hpaid with hs | hmin
    · calc min * u ≤ min * ((n + 1) * s) := Nat.mul_le_mul_left min (h.le_mul hs)
        _ = (n + 1) * (min * s) := Nat.mul_left_comm _ _ _
    · rw [hmin]
      omega
  rw [Nat.mul_add]
  omega

theorem quest_le (h : Proportion n s u) (hn : 0 < n) : u + 1 ≤ (n + 1) * (s + 1) := by
  have hu := h.le hn
  rw [Nat.succ_mul]
  omega

theorem star_le {c : ℕ} (h : Proportion n s u) (hn : 0 < n) (hc : c ≤ 3) :
    u + c ≤ (n + 1) * (s + 2) := by
  have hu := h.le hn
  have hmul : (n + 1) * (s + 2) = n * (s + 1) + n + (s + 2) := by ring
  omega

end Proportion

theorem starCalls_le (b : Bool) : starCalls b ≤ 3 := by
  cases b <;> decide

theorem repeat_proportion {sub : Node} {min : ℕ} {max : Option ℕ} {greedy : Bool}
    (h : Proportion sub.nodes sub.size sub.unrolled)
    (hpaid : 0 < sub.size ∨ min = 0 ∨ min = 1 ∧ max = some 1) :
    Proportion (1 + sub.nodes) (Node.repeat_ sub min max greedy).size
      (Node.repeat_ sub min max greedy).unrolled := by
  have hn := sub.nodes_pos
  rw [Nat.add_comm 1]
  cases max with
  | none =>
    rw [Node.size, Node.unrolled, tailSize, tailCalls]
    have hcopies := h.copies min (hpaid.imp_right fun h => h.elim id fun h => nomatch h.2)
      (h.star_le hn (starCalls_le (nullable sub)))
    exact ⟨fun hs => by omega, fun _ => by omega⟩
  | some m =>
    rw [Node.size, Node.unrolled, tailSize, tailCalls]
    refine ⟨fun hs => ?_, fun hs => ?_⟩
    · -- nothing is emitted: no optional copy, and at most one mandatory one
      have hopt : m - min = 0 := by
        rcases Nat.eq_zero_or_pos (m - min) with h | h
        · exact h
        · have hpos : 0 < (m - min) * (sub.size + 1) := Nat.mul_pos h (Nat.succ_pos _)
          omega
      rw [hopt, Nat.zero_mul]
      rcases Nat.eq_zero_or_pos min with hmin | hmin
      · rw [hmin, Nat.zero_mul]
        omega
      · have hsize : sub.size = 0 := by
          rcases Nat.eq_zero_or_pos sub.size with h | h
          · exact h
          · have := Nat.mul_pos hmin h
            omega
        have hone : min = 1 := by omega
        have hu := h.1 hsize
        rw [hone, Nat.one_mul]
        omega
    · have hmin : 0 < sub.size ∨ min = 0 := by
        rcases hpaid with hpos | hzero | ⟨hone, hmax⟩
        · exact .inl hpos
        · exact .inr hzero
        · cases hmax
          rw [hone, Nat.sub_self] at hs
          exact .inl (by omega)
      have htail : (m - min) * (sub.unrolled + 1) ≤ (sub.nodes + 1) * ((m - min) * (sub.size + 1)) :=
        calc (m - min) * (sub.unrolled + 1)
          _ ≤ (m - min) * ((sub.nodes + 1) * (sub.size + 1)) :=
            Nat.mul_le_mul_left _ (h.quest_le hn)
          _ = (sub.nodes + 1) * ((m - min) * (sub.size + 1)) := Nat.mul_left_comm _ _ _
      have hcopies := h.copies min hmin htail
      omega

/-- A counted repeat that fits in the room of which its bodies are paid. -/
theorem repeat_proportion_of_paid {sub : Node} {min : ℕ} {max : Option ℕ} {greedy : Bool} {room : ℕ}
    (hsub : ∀ {room}, sub.paid room = true → sub.size ≤ room → Proportion sub.nodes sub.size sub.unrolled)
    (h : (Node.repeat_ sub min max greedy).paid room = true)
    (hfit : (Node.repeat_ sub min max greedy).size ≤ room) :
    Proportion (1 + sub.nodes) (Node.repeat_ sub min max greedy).size
      (Node.repeat_ sub min max greedy).unrolled := by
  rw [paid_repeat] at h
  rw [Node.size] at hfit
  split at h
  case isTrue hmin =>
    by_cases hmax : max = some 0
    · rw [hmin, hmax, Node.size, Node.unrolled, tailSize, tailCalls]
      exact ⟨fun _ => by omega, fun hs => by omega⟩
    · have htail : sub.size + 1 ≤ tailSize sub.size min max := by
        cases max with
        | none => exact Nat.le_succ _
        | some m =>
          rw [tailSize, hmin, Nat.sub_zero]
          exact Nat.le_mul_of_pos_left _ (Nat.pos_of_ne_zero fun h => hmax (congrArg some h))
      exact repeat_proportion (hsub (h.resolve_left hmax (by omega)) (by omega)) (.inr (.inl hmin))
  case isFalse hmin =>
    have hcopy : sub.size ≤ min * sub.size := Nat.le_mul_of_pos_left _ (Nat.pos_of_ne_zero hmin)
    exact repeat_proportion (hsub h.1 (by omega)) (h.2.imp_right .inr)

mutual
/-- Of a tree that fits in the room, the calls are in proportion to the instructions. -/
theorem proportion : ∀ {n : Node} {room : ℕ}, n.paid room = true → n.size ≤ room →
    Proportion n.nodes n.size n.unrolled
  | .empty, _, _, _ => ⟨fun _ => Nat.le_refl _, fun _ => by decide⟩
  | .char _, _, _, _ | .any, _, _, _ | .class_ _, _, _, _ | .anchorStart, _, _, _ | .anchorEnd, _, _, _
  | .lineStart, _, _, _ | .lineEnd, _, _, _ => Proportion.one
  | .concat nodes, _, h, hfit => by
    rw [Node.paid] at h
    rw [Node.nodes, Node.size, Node.unrolled]
    exact (proportionAll h hfit).call
  | .alt a b, room, h, hfit => by
    simp only [Node.paid, Bool.and_eq_true, after_eq] at h
    rw [Node.size] at hfit
    have ha := proportion (h.1 (by omega)) (by omega)
    have hab := ha.append (proportion (h.2 (by omega)) (by omega)) a.nodes_pos
    rw [Node.nodes, Node.size, Node.unrolled, Nat.add_assoc]
    exact hab.more (Nat.add_pos_left a.nodes_pos _) (by decide) (by decide)
  | .star sub _, _, h, hfit => by
    rw [Node.paid, after_eq] at h
    rw [Node.size] at hfit
    rw [Node.nodes, Node.size, Node.unrolled]
    exact (proportion (h (by omega)) (by omega)).more sub.nodes_pos (by decide) (starCalls_le _)
  | .quest sub _, _, h, hfit => by
    rw [Node.paid, after_eq] at h
    rw [Node.size] at hfit
    rw [Node.nodes, Node.size, Node.unrolled]
    exact (proportion (h (by omega)) (by omega)).more sub.nodes_pos (by decide) (by decide)
  | .plus sub _, _, h, hfit => by
    rw [Node.paid] at h
    rw [Node.size] at hfit
    rw [Node.nodes, Node.size, Node.unrolled]
    exact (proportion h (by omega)).more sub.nodes_pos (by decide) (by decide)
  | .repeat_ sub min max _, _, h, hfit => by
    rw [Node.nodes]
    exact repeat_proportion_of_paid (fun h hfit => proportion h hfit) h hfit
  | .group sub none, _, h, hfit => by
    rw [Node.paid] at h
    rw [Node.nodes, Node.size, Node.unrolled]
    exact (proportion h hfit).call
  | .group sub (some _), _, h, hfit => by
    rw [Node.paid, after_eq] at h
    rw [Node.size] at hfit
    rw [Node.nodes, Node.size, Node.unrolled]
    exact (proportion (h (by omega)) (by omega)).more sub.nodes_pos (by decide) (by decide)
theorem proportionAll : ∀ {ns : List Node} {room : ℕ}, paidAll ns room = true → sizeAll ns ≤ room →
    Proportion (nodesAll ns) (sizeAll ns) (unrolledAll ns)
  | [], _, _, _ => ⟨fun _ => Nat.le_refl _, fun h => nomatch h⟩
  | n :: ns, _, h, hfit => by
    simp only [paidAll, Bool.and_eq_true, after_eq] at h
    rw [sizeAll] at hfit
    rw [nodesAll, sizeAll, unrolledAll]
    exact (proportion h.1 (by omega)).append (proportionAll (h.2 (by omega)) (by omega)) n.nodes_pos
end

end Jed.Regex
