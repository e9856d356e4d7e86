import Jed.Compare.Coherence
import Jed.Key.IndexOrder
import Jed.Sorts.Sort

/-!
# The order of a query's rows

The comparisons of a sort are total orders of rows whose keys are of the types of their slots.
-/

namespace Jed.Sorts

open Compare Key KeyCodes

/-- The values of the keys are of the types of their slots. -/
def RowTyped (types : Nat → ColType) (order : List SortKey) (row : List Value) : Prop :=
  ∀ k ∈ order, OrNull (OfType (types k.slot)) (slotValue row k)

theorem totalOn_swap {α : Type} {S : α → Prop} {cmp : α → α → Ordering} (h : TotalOn S cmp) :
    TotalOn S fun a b => (cmp a b).swap where
  swap ha hb := by rw [h.swap ha hb]
  trans {a b c} ha hb hc hab hbc := by
    rw [← h.swap ha hb] at hab
    rw [← h.swap hb hc] at hbc
    rw [← h.swap ha hc]
    exact h.trans hc hb ha hbc hab

theorem totalOn_cmpSortKeys (descending nullsFirst : Bool) :
    TotalOn (fun _ => True) fun x y => cmpSortKeys x y descending nullsFirst := by
  have hlex : TotalOn (fun _ : Bytes => True) fun x y =>
      if descending then (lexCompare x y).swap else lexCompare x y := by
    cases descending with
    | false => exact totalOn_lexCompare
    | true => exact totalOn_swap totalOn_lexCompare
  let rank : Option Bytes → ℕ := fun x => if x.isSome then 1 else if nullsFirst then 0 else 2
  apply TotalOn.ranked rank
  · intro r
    by_cases hr : r = 1
    · refine hlex.image (f := some) (fun x hx => ?_) fun x y _ _ => rfl
      cases x with
      | some x => exact ⟨x, trivial, rfl⟩
      | none =>
        have hnone : (if nullsFirst then 0 else 2) = 1 := hx.2.trans hr
        cases nullsFirst <;> cases hnone
    · have hof : ∀ x, True ∧ rank x = r → x = none := by
        intro x hx
        cases x with
        | some x => exact absurd hx.2.symm hr
        | none => rfl
      constructor
      · intro a b ha hb
        rw [hof a ha, hof b hb]
        rfl
      · intro a b c ha _ hc _ _
        rw [hof a ha, hof c hc]
        exact Ordering.noConfusion
  · intro a b _ _ hne
    cases a with
    | none =>
      cases b with
      | none => exact absurd rfl hne
      | some b => cases nullsFirst <;> rfl
    | some a =>
      cases b with
      | none => cases nullsFirst <;> rfl
      | some b => exact absurd rfl hne

theorem totalOn_keyCmp {S : Value → Prop} (h : TotalOn S valueCmp) (hne : ∀ v, S v → v ≠ .null)
    (descending nullsFirst : Bool) :
    TotalOn (OrNull S) fun a b => keyCmp a b descending nullsFirst := by
  have hpresent : TotalOn S fun a b => keyCmp a b descending nullsFirst := by
    have hdirected : TotalOn S fun a b => if descending then (valueCmp a b).swap else valueCmp a b := by
      cases descending with
      | false => exact h
      | true => exact totalOn_swap h
    exact hdirected.congr fun a b ha hb => nullCmp_present (hne a ha) (hne b hb) _ _ _
  refine totalOn_orNull hpresent (if nullsFirst then 0 else 2) (by cases nullsFirst <;> decide) rfl ?_ ?_
  · intro y hy
    rw [keyCmp, nullCmp_left hy]
    cases nullsFirst <;> rfl
  · intro x hx
    rw [keyCmp, nullCmp_right hx]
    cases nullsFirst <;> rfl

theorem SortKey.totalOn_cmp (k : SortKey) (t : ColType) : TotalOn (OrNull (OfType t)) k.cmp := by
  have hkey := totalOn_keyCmp (coheres_type t).total (coheres_type t).ne_null k.descending k.nullsFirst
  cases hcoll : k.coll with
  | none => exact hkey.congr fun a b _ _ => by rw [SortKey.cmp, hcoll]
  | some c =>
    have hkeys := (totalOn_cmpSortKeys k.descending k.nullsFirst).comap fun v =>
      (collationSortKey c v).toOption.getD none
    exact (hkeys.mono fun _ _ => trivial).congr fun a b _ _ => by rw [SortKey.cmp, hcoll]

theorem totalOn_orderCmp (types : ℕ → ColType) (order : List SortKey) :
    TotalOn (RowTyped types order) fun a b => orderCmp a b order := by
  induction order with
  | nil => exact ⟨fun _ _ => rfl, fun _ _ _ _ _ => Ordering.noConfusion⟩
  | cons k order ih =>
    have hfirst := (k.totalOn_cmp (types k.slot)).comap fun row => slotValue row k
    exact (hfirst.mono fun row h => h k List.mem_cons_self).andThen
      (ih.mono fun row h => fun k hk => h k (List.mem_cons_of_mem _ hk))

end Jed.Sorts
