import Mathlib.Data.List.Basic

/-!
# Stable storage

A cell of a medium with a volatile cache before it: what a barrier last made durable, and the writes
since. A power loss leaves one of these, or a torn value where a write was pending.
-/

namespace Stable

variable {α : Type}

/-- A durable value and the writes after it, the newest first. -/
structure Cell (α : Type) where
  durable : α
  pending : List α

namespace Cell

/-- A cell with nothing pending. -/
def clean (x : α) : Cell α := ⟨x, []⟩

/-- What a read sees. -/
def current (c : Cell α) : α := c.pending.headD c.durable

def write (c : Cell α) (x : α) : Cell α := { c with pending := x :: c.pending }

/-- A barrier. -/
def sync (c : Cell α) : Cell α := clean c.current

/-- What a power loss leaves, for each outcome `k`. -/
def pick (torn : α) (c : Cell α) (k : ℕ) : α :=
  match c.pending, k with
  | [], _ => c.durable
  | _ :: _, 0 => c.durable
  | x :: l, k + 1 => (x :: l).getD k torn

@[simp] theorem current_clean (x : α) : (clean x).current = x := rfl

@[simp] theorem current_write (c : Cell α) (x : α) : (c.write x).current = x := rfl

@[simp] theorem current_sync (c : Cell α) : c.sync.current = c.current := rfl

@[simp] theorem pick_clean (torn x : α) (k : ℕ) : (clean x).pick torn k = x := rfl

@[simp] theorem pick_sync (torn : α) (c : Cell α) (k : ℕ) : c.sync.pick torn k = c.current := rfl

theorem exists_pick_current (torn : α) (c : Cell α) : ∃ k, c.pick torn k = c.current := by
  cases hc : c.pending with
  | nil => exact ⟨0, by simp [pick, current, hc]⟩
  | cons x l => exact ⟨1, by simp [pick, current, hc]⟩

/-- A write adds itself and a torn value to the outcomes. -/
theorem pick_write (torn : α) (c : Cell α) (x : α) (k : ℕ) :
    (c.write x).pick torn k = x ∨ (c.write x).pick torn k = torn ∨
      ∃ j, (c.write x).pick torn k = c.pick torn j := by
  cases k with
  | zero =>
    refine .inr (.inr ⟨0, ?_⟩)
    cases hc : c.pending <;> simp [pick, write, hc]
  | succ k =>
    cases k with
    | zero => exact .inl rfl
    | succ k =>
      cases hc : c.pending with
      | nil => exact .inr (.inl (by simp [pick, write, hc]))
      | cons y l =>
        refine .inr (.inr ⟨k + 1, ?_⟩)
        simp [pick, write, hc]

end Cell

end Stable
