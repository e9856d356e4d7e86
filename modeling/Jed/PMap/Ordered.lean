import Jed.Lib.Chain
import Jed.PMap.Tree

/-!
# Order and contents

The search-tree invariant, and what the operations do to a tree's contents. Separators may be
stale (they bound their neighbours without being a key), so the invariant speaks of bounds only:
child `i` holds keys in `[sep (i-1), sep i)`.
-/

namespace Jed.PMap

open KeyChain

variable {ρ : Type}

/-- Sorted leaves between ascending separators, every key within its bounds. -/
def Ordered : (n : Nat) → Option Bytes → Option Bytes → Tree ρ n → Prop
  | 0, lo, hi, (es : Leaf ρ) => SortedMap.Sorted es ∧ ∀ e ∈ es, InRange lo hi e.1
  | n + 1, lo, hi, (t : Inner (Tree ρ n)) => Chain (Ordered n) lo t.keys t.children hi

/-- What an insert hands up fits the same bounds: one node, or two around a separator inside them. -/
def Grown.Within {τ : Type} (P : Option Bytes → Option Bytes → τ → Prop) (lo hi : Option Bytes) :
    Grown τ → Prop
  | .whole t => P lo hi t
  | .split left sep right =>
    Below lo (some sep) ∧ P lo (some sep) left ∧ Below (some sep) hi ∧ P (some sep) hi right

/-- The contents of the nodes of a `Grown`, in order. -/
def Grown.contents {τ ε : Type} (f : τ → List ε) : Grown τ → List ε
  | .whole t => f t
  | .split left _ right => f left ++ f right

theorem Grown.flatMap_nodes {τ ε : Type} (f : τ → List ε) (g : Grown τ) :
    g.nodes.flatMap f = g.contents f := by
  cases g <;> simp [nodes, contents]

/-- The separators of a `Grown`. -/
def Grown.seps {τ : Type} : Grown τ → List Bytes
  | .whole _ => []
  | .split _ sep _ => [sep]

theorem Grown.Within.chain {τ : Type} {P : Option Bytes → Option Bytes → τ → Prop}
    {lo hi : Option Bytes} {g : Grown τ} (h : g.Within P lo hi) (hlt : Below lo hi) :
    Chain P lo g.seps g.nodes hi := by
  cases g with
  | whole t => exact ⟨hlt, h⟩
  | split left sep right => exact ⟨h.1, h.2.1, h.2.2.1, h.2.2.2⟩

/-- The binary search returns the slot of the key, or the slot it would take. -/
theorem search_spec (keys : List Bytes) (key : Bytes) (hs : keys.Pairwise (· < ·)) (lo hi : Nat)
    (hle : lo ≤ hi) (hhi : hi ≤ keys.length)
    (hbelow : ∀ i (h : i < keys.length), i < lo → keys[i] < key)
    (habove : ∀ i (h : i < keys.length), hi ≤ i → key < keys[i]) :
    match search (fun i => keys.getD i []) key lo hi with
    | .ok i => keys[i]? = some key
    | .error i => i ≤ keys.length ∧ (∀ k ∈ keys.take i, k < key) ∧ ∀ k ∈ keys.drop i, key < k := by
  induction lo, hi using search.induct (fun i => keys.getD i []) key with
  | case1 lo hi hlt mid hcmp ih =>
    rw [search, if_pos hlt]
    have hmid : mid < keys.length := by omega
    have hget : keys.getD mid [] = keys[mid] := by simp [hmid]
    simp only [show (lo + hi) / 2 = mid from rfl, hcmp, if_true]
    refine ih (by omega) hhi (fun i h hi' => ?_) habove
    rcases Nat.lt_or_eq_of_le (Nat.le_of_lt_succ hi') with hlt' | heq
    · exact (List.pairwise_iff_getElem.mp hs i mid h hmid hlt').trans (hget ▸ hcmp)
    · exact heq ▸ hget ▸ hcmp
  | case2 lo hi hlt mid hcmp hcmp' ih =>
    rw [search, if_pos hlt]
    have hmid : mid < keys.length := by omega
    have hget : keys.getD mid [] = keys[mid] := by simp [hmid]
    simp only [show (lo + hi) / 2 = mid from rfl, hcmp, hcmp', if_true, if_false]
    refine ih (by omega) (by omega) hbelow (fun i h hi' => ?_)
    rcases Nat.lt_or_eq_of_le hi' with hlt' | heq
    · exact (hget ▸ hcmp').trans (List.pairwise_iff_getElem.mp hs mid i hmid h hlt')
    · exact heq ▸ hget ▸ hcmp'
  | case3 lo hi hlt mid hcmp hcmp' =>
    rw [search, if_pos hlt]
    have hmid : mid < keys.length := by omega
    have hget : keys.getD mid [] = keys[mid] := by simp [hmid]
    simp only [show (lo + hi) / 2 = mid from rfl, hcmp, hcmp', if_false]
    rw [List.getElem?_eq_getElem hmid, ← hget]
    exact congrArg some (le_antisymm (not_lt.mp hcmp') (not_lt.mp hcmp))
  | case4 lo hi hlt =>
    rw [search, if_neg hlt]
    refine ⟨by omega, fun k hk => ?_, fun k hk => ?_⟩
    · obtain ⟨i, hi', rfl⟩ := List.mem_iff_getElem.mp hk
      rw [List.getElem_take]
      exact hbelow i _ (by simp at hi'; omega)
    · obtain ⟨i, hi', rfl⟩ := List.mem_iff_getElem.mp hk
      rw [List.getElem_drop]
      exact habove (lo + i) _ (by omega)

/-- A sorted leaf is cut where the search lands. -/
theorem searchKeys_spec {es : Leaf ρ} (hs : SortedMap.Sorted es) (key : Bytes) :
    match searchKeys (es.map Prod.fst) key with
    | .ok i => ∃ l rec r, es = l ++ (key, rec) :: r ∧ l.length = i ∧
        (∀ e ∈ l, e.1 < key) ∧ ∀ e ∈ r, key < e.1
    | .error i => ∃ l r, es = l ++ r ∧ l.length = i ∧
        (∀ e ∈ l, e.1 < key) ∧ ∀ e ∈ r, key < e.1 := by
  have hkeys : (es.map Prod.fst).Pairwise (· < ·) := List.pairwise_map.mpr hs
  have h := search_spec (es.map Prod.fst) key hkeys 0 _ (Nat.zero_le _) le_rfl
    (fun _ _ h => absurd h (Nat.not_lt_zero _)) (fun i h h' => absurd h (Nat.not_lt.mpr h'))
  rw [← searchKeys] at h
  cases hres : searchKeys (es.map Prod.fst) key with
  | ok i =>
    simp only [hres, List.getElem?_map, Option.map_eq_some_iff] at h ⊢
    obtain ⟨⟨k, rec⟩, hi, rfl⟩ := h
    obtain ⟨hlt, hget⟩ := List.getElem?_eq_some_iff.mp hi
    have hcut := Splice.eq_cut hi
    refine ⟨es.take i, rec, es.drop (i + 1), hcut, by simp; omega, ?_⟩
    rw [hcut] at hs
    obtain ⟨-, hr, hlr⟩ := SortedMap.Sorted.append_iff.mp hs
    exact ⟨fun e he => hlr e he _ List.mem_cons_self, (SortedMap.Sorted.cons_iff.mp hr).1⟩
  | error i =>
    simp only [hres, List.length_map] at h ⊢
    obtain ⟨hle, hl, hr⟩ := h
    refine ⟨es.take i, es.drop i, (List.take_append_drop i es).symm, by simp; omega, ?_, ?_⟩
    · exact fun e he => hl e.1 (by rw [← List.map_take]; exact List.mem_map_of_mem he)
    · exact fun e he => hr e.1 (by rw [← List.map_drop]; exact List.mem_map_of_mem he)

theorem Ordered.records_inRange {n : Nat} : ∀ {lo hi : Option Bytes} {t : Tree ρ n},
    Ordered n lo hi t → ∀ e ∈ records n t, InRange lo hi e.1 := by
  induction n with
  | zero => intro lo hi t h; exact h.2
  | succ n ih => intro lo hi t h; exact Chain.contents_inRange (fun _ _ _ hp => ih hp) h

theorem Ordered.records_sorted {n : Nat} : ∀ {lo hi : Option Bytes} {t : Tree ρ n},
    Ordered n lo hi t → SortedMap.Sorted (records n t) := by
  induction n with
  | zero => intro lo hi t h; exact h.1
  | succ n ih =>
    intro lo hi t h
    exact Chain.contents_sorted (fun _ _ _ hp => hp.records_inRange) (fun _ _ _ hp => ih hp) h

theorem Ordered.at_slot {n : Nat} {lo hi : Option Bytes} {t : Inner (Tree ρ n)} {key : Bytes}
    (h : Chain (Ordered n) lo t.keys t.children hi) (hk : InRange lo hi key) :
    ∃ c lo' hi', t.children[childSlot t.keys key]? = some c ∧
      Before (Ordered n) lo (t.keys.take (childSlot t.keys key))
        (t.children.take (childSlot t.keys key)) lo' ∧
      InRange lo' hi' key ∧ Ordered n lo' hi' c ∧
      After (Ordered n) hi' (t.keys.drop (childSlot t.keys key))
        (t.children.drop (childSlot t.keys key + 1)) hi :=
  h.slot_inRange hk

/-- The descent finds what the contents bind. -/
theorem lookup_eq_get {n : Nat} : ∀ {lo hi : Option Bytes} {t : Tree ρ n} {key : Bytes},
    Ordered n lo hi t → InRange lo hi key →
      lookup n t key = (SortedMap.get key (records n t)).map Rec.row := by
  induction n with
  | zero =>
    intro lo hi t key h _
    have hsearch := searchKeys_spec h.1 key
    simp only [lookup, records]
    cases hres : searchKeys (List.map Prod.fst t) key with
    | ok i =>
      simp only [hres] at hsearch ⊢
      obtain ⟨l, rec, r, rfl, rfl, hl, hr⟩ := hsearch
      rw [SortedMap.get_at_cut hl]
      simp
    | error i =>
      simp only [hres] at hsearch ⊢
      obtain ⟨l, r, rfl, rfl, hl, hr⟩ := hsearch
      rw [SortedMap.get_between hl hr]
      rfl
  | succ n ih =>
    intro lo hi t key h hk
    obtain ⟨c, lo', hi', hc, hb, hr, hp, ha⟩ := Ordered.at_slot h hk
    simp only [lookup, hc, records]
    rw [ih hp hr]
    conv_rhs => rw [Splice.eq_cut hc]
    rw [List.flatMap_append, List.flatMap_cons, SortedMap.get_append_left, SortedMap.get_append_right]
    · intro e he
      exact (ha.contents_ge (fun _ _ _ hp => hp.records_inRange) hr.below e he).ne'
    · intro e he
      exact (hb.contents_lt (fun _ _ _ hp => hp.records_inRange) hr.above e he).ne

end Jed.PMap
