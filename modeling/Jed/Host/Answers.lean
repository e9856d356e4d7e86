import Jed.Host.Kernels
import Mathlib.Data.Int.Notation

/-!
# Prefetched outcomes are the calls' own

What a slot holds for a row is what the call of that row alone gives, and so evaluation with a batch gives
what evaluation without one does.
-/

namespace Jed.Host

open Runs

variable {V μ ε : Type}

/-- The call of a slot over the row at `j` is one that a prefetch sends, and gives `r`. -/
def Answered (w : World V μ ε) (rows : List (Row V)) (s : Slot V ε) (j : ℕ) (r : Except ε V) : Prop :=
  ∃ row vals, rows[j]? = some row ∧ w.gather row s.args = some vals ∧
    (w.functions s.id).callOne w.values vals = r

/-- What the slot holds, it holds for the rows whose calls give it. -/
structure SlotOk (w : World V μ ε) (rows : List (Row V)) (s : Slot V ε) : Prop where
  values : ∀ (k : ℕ) v, s.values[k]? = some (some v) → Answered w rows s (s.base + k) (.ok v)
  error : ∀ (k : ℕ) e, s.error = some (k, e) → Answered w rows s (s.base + k) (.error e)

theorem slotOk_of_empty {w : World V μ ε} {rows : List (Row V)} {s : Slot V ε}
    (hvalues : ∀ (k : ℕ) v, s.values[k]? ≠ some (some v)) (herror : s.error = none) : SlotOk w rows s where
  values k v h := absurd h (hvalues k v)
  error k e h := by
    rw [herror] at h
    cases h

/-! ### Prefetching -/

theorem mem_members {w : World V μ ε} {args : List (RExpr V)} {rows : List (Row V)} {x : ℕ × List V}
    (h : x ∈ w.members args rows) : ∃ row, rows[x.1]? = some row ∧ w.gather row args = some x.2 := by
  obtain ⟨⟨row, k⟩, hmem, hx⟩ := List.mem_filterMap.mp h
  obtain ⟨vals, hvals, rfl⟩ := Option.map_eq_some_iff.mp hx
  exact ⟨row, List.mem_zipIdx_iff_getElem?.mp hmem, hvals⟩

theorem getElem?_foldl_set {β : Type} (l : List (β × V)) (place : β → ℕ) (init : List (Option V)) {k : ℕ}
    {v : V} (h : (l.foldl (fun values x => values.set (place x.1) (some x.2)) init)[k]? = some (some v)) :
    init[k]? = some (some v) ∨ ∃ x ∈ l, place x.1 = k ∧ x.2 = v := by
  induction l generalizing init with
  | nil => exact .inl h
  | cons x l ih =>
    rcases ih _ h with hset | ⟨y, hy, heq⟩
    · rw [List.getElem?_set] at hset
      split at hset
      · rename_i hk
        split at hset
        · cases hset
          exact .inr ⟨x, List.mem_cons_self, hk, rfl⟩
        · cases hset
      · exact .inl hset
    · exact .inr ⟨y, List.mem_cons_of_mem _ hy, heq⟩

/-- A result placed at a chunk row is the result of a member of that row. -/
theorem getElem?_placed {n : ℕ} {members : List (ℕ × List V)} {results : List V} {k : ℕ} {v : V}
    (h : (placed n members results)[k]? = some (some v)) :
    ∃ (i : ℕ) (vals : List V), members[i]? = some (k, vals) ∧ results[i]? = some v := by
  rcases getElem?_foldl_set (members.zip results) Prod.fst _ h with hinit | ⟨⟨⟨k', vals⟩, v'⟩, hx, hk, hv⟩
  · obtain ⟨_, hnone⟩ := List.getElem?_eq_some_iff.mp hinit
    rw [List.getElem_replicate] at hnone
    cases hnone
  · cases hk
    cases hv
    obtain ⟨i, hi⟩ := List.mem_iff_getElem?.mp hx
    obtain ⟨hm, hr⟩ := List.getElem?_zip_eq_some.mp hi
    exact ⟨i, vals, hm, hr⟩

theorem getElem?_chunk {rows : List (Row V)} {start n k : ℕ} {row : Row V}
    (h : ((rows.drop start).take n)[k]? = some row) : rows[start + k]? = some row := by
  rw [List.getElem?_take] at h
  split at h
  · rwa [List.getElem?_drop] at h
  · cases h

theorem length_gather {w : World V μ ε} {row : Row V} {args : List (RExpr V)} {vals : List V}
    (h : w.gather row args = some vals) : vals.length = args.length := by
  induction args generalizing vals with
  | nil =>
    cases h
    rfl
  | cons a args ih =>
    unfold World.gather at h
    rw [List.mapM_cons] at h
    cases ha : w.sent row a with
    | none =>
      rw [ha] at h
      cases h
    | some v =>
      rw [ha] at h
      cases hrest : args.mapM (w.sent row) with
      | none =>
        simp only [hrest] at h
        cases h
      | some rest =>
        simp only [hrest] at h
        cases h
        exact congrArg (· + 1) (ih hrest)

/-- A prefetch of a call whose kernel is row-wise. -/
theorem slotOk_prefetch {w : World V μ ε} {s : Slot V ε} (hargs : s.args ≠ [])
    {kernel : List (List V) → List V × Except ε Unit} {f : List V → Except ε V}
    (hkernel : (w.functions s.id).kernel = .batch kernel) (hf : RowWise kernel f) (batchRows start : ℕ)
    (rows : List (Row V)) (last : ℕ) (headroom : Option ℤ) :
    SlotOk w rows (w.prefetch batchRows s start rows last headroom) := by
  unfold World.prefetch
  dsimp only
  generalize chunkSize batchRows (w.functions s.id) (last - start) headroom = n
  by_cases hmembers : (w.members s.args ((rows.drop start).take n)).isEmpty = true
  · rw [if_pos hmembers]
    refine slotOk_of_empty (fun k v hget => ?_) rfl
    obtain ⟨_, hnone⟩ := List.getElem?_eq_some_iff.mp hget
    rw [List.getElem_replicate] at hnone
    cases hnone
  · rw [if_neg hmembers]
    -- A member is a row of the chunk, with the arguments that are sent.
    have hmember : ∀ (i k : ℕ) (vals : List V),
        (w.members s.args ((rows.drop start).take n))[i]? = some (k, vals) →
          ∃ row, rows[start + k]? = some row ∧ w.gather row s.args = some vals := by
      intro i k vals hi
      obtain ⟨row, hrow, hvals⟩ := mem_members (List.mem_of_getElem? hi)
      exact ⟨row, getElem?_chunk hrow, hvals⟩
    have harity : ∀ r ∈ (w.members s.args ((rows.drop start).take n)).map Prod.snd,
        r.length = s.args.length := by
      intro r hr
      obtain ⟨x, hx, rfl⟩ := List.mem_map.mp hr
      obtain ⟨row, -, hvals⟩ := mem_members hx
      exact length_gather hvals
    have hbatch := callBatchPrefix_eq hkernel hf w.values s.args.length _ (by simpa using hmembers)
      harity fun hzero => absurd (List.length_eq_zero_iff.mp hzero) hargs
    generalize w.members s.args ((rows.drop start).take n) = members at *
    rw [List.length_map, List.map_map] at hbatch
    rw [hbatch]
    -- The row of a member's place gives what the batch gave there.
    have hcall : ∀ (i k : ℕ) (vals : List V) (r : Except ε V), members[i]? = some (k, vals) →
        f ((w.functions s.id).coerced w.values vals) = r →
          ∃ row vals', rows[start + k]? = some row ∧ w.gather row s.args = some vals' ∧
            (w.functions s.id).callOne w.values vals' = r := by
      intro i k vals r hi hr
      obtain ⟨row, hrow, hvals⟩ := hmember i k vals hi
      exact ⟨row, vals, hrow, hvals, by rw [callOne_eq hkernel hf, hr]⟩
    have hvalues : ∀ (k : ℕ) v, (placed n members (eachRow f (members.map
        ((w.functions s.id).coerced w.values ∘ Prod.snd))).1)[k]? = some (some v) →
          ∃ row vals', rows[start + k]? = some row ∧ w.gather row s.args = some vals' ∧
            (w.functions s.id).callOne w.values vals' = .ok v := by
      intro k v hget
      obtain ⟨i, vals, hi, hresult⟩ := getElem?_placed hget
      obtain ⟨row, hrow, hv⟩ := eachRow_answers hresult
      rw [List.getElem?_map, hi] at hrow
      cases hrow
      exact hcall i k vals _ hi hv
    cases herror : (eachRow f (members.map ((w.functions s.id).coerced w.values ∘ Prod.snd))).2 with
    | ok u =>
      exact ⟨hvalues, fun k e h => by cases h⟩
    | error e =>
      refine ⟨hvalues, fun k e' h => ?_⟩
      obtain ⟨row, hrow, hfail⟩ := eachRow_fails herror
      rw [List.getElem?_map] at hrow
      obtain ⟨⟨k', vals⟩, hi, rfl⟩ := Option.map_eq_some_iff.mp hrow
      simp only [hi, Option.map_some, Option.getD_some] at h
      cases h
      exact hcall _ _ vals _ hi hfail

end Jed.Host
