import Jed.PMap.Fit

/-!
# The map over the tree value

`TreeMap` is a finite sorted map: the operations are those of `SortedMap` on its contents, and they
keep the invariant of the tree (order, separators and page fit), so none of them panics.
-/

namespace Jed.PMap

variable {ρ : Type} {cap : Cap} {shape : LeafShape}

/-- The records of a map, in key order. -/
def TreeMap.contents (m : TreeMap ρ) : List (Bytes × Rec ρ) :=
  match m.root with
  | none => []
  | some ⟨n, t⟩ => records n t

/-- The invariant of a map: its tree is ordered and every node fits, and the count is exact. -/
structure TreeMap.Ok (cap : Cap) (shape : LeafShape) (m : TreeMap ρ) : Prop where
  count : m.count = m.contents.length
  tree : ∀ n t, m.root = some ⟨n, t⟩ → CapOk cap shape ∧ Ordered n none none t ∧ Fits cap shape n t

theorem inRange_none (key : Bytes) : KeyChain.InRange none none key :=
  ⟨fun _ h => (by cases h), fun _ h => (by cases h)⟩

theorem TreeMap.new_ok : (TreeMap.new : TreeMap ρ).Ok cap shape :=
  ⟨rfl, fun _ _ h => by cases h⟩

variable {m : TreeMap ρ}

theorem TreeMap.Ok.sorted (h : m.Ok cap shape) : SortedMap.Sorted m.contents := by
  unfold TreeMap.contents
  cases hr : m.root with
  | none => exact List.Pairwise.nil
  | some t => exact (h.tree _ _ hr).2.1.records_sorted

theorem TreeMap.get_eq (h : m.Ok cap shape) (key : Bytes) :
    m.get key = (SortedMap.get key m.contents).map Rec.row := by
  unfold TreeMap.get TreeMap.contents
  cases hr : m.root with
  | none => rfl
  | some t => exact lookup_eq_get (h.tree _ _ hr).2.1 (inRange_none key)

theorem growRoot_spec {n : Nat} {g : Grown (Tree ρ n)} (hw : g.Within (Ordered n) none none)
    (hf : g.All cap shape (Fits cap shape n)) (hcap : CapOk cap shape) :
    Ordered (growRoot g).1 none none (growRoot g).2 ∧
      Fits cap shape (growRoot g).1 (growRoot g).2 ∧
      records (growRoot g).1 (growRoot g).2 = g.contents (records n) := by
  cases g with
  | whole t => exact ⟨hw, hf, rfl⟩
  | split left sep right =>
    obtain ⟨hleft, hsep, hright⟩ := hf
    refine ⟨hw.chain (fun _ h => (by cases h)), ⟨interiorPayload_single hcap hsep, rfl, ?_, ?_⟩, ?_⟩
    · intro s hs
      obtain rfl : s = sep := List.mem_singleton.mp hs
      exact hsep
    · intro c hc
      rcases List.mem_pair.mp hc with rfl | rfl
      · exact hleft
      · exact hright
    · simp [growRoot, records, Grown.contents]

/-- Insert is the sorted map's insert, and returns what the key was bound to. -/
theorem TreeMap.insert_spec (hsep : SepFits cap shape) (h : m.Ok cap shape)
    {key : Bytes} {rec : Rec ρ} (hrec : RecordOk cap shape key rec.weight) :
    ∃ m', m.insert cap shape key rec =
        some ((SortedMap.get key m.contents).map Rec.row, m') ∧ m'.Ok cap shape ∧
      m'.contents = SortedMap.insert key rec m.contents := by
  have hcapOk := hrec.capOk hsep
  have hlen := SortedMap.length_insert h.sorted key rec
  have hcount := h.count
  cases hr : m.root with
  | none =>
    have hnil : m.contents = [] := by simp [TreeMap.contents, hr]
    refine ⟨⟨some ⟨0, ([(key, rec)] : Leaf ρ)⟩, m.count + 1⟩, ?_, ⟨?_, ?_⟩, ?_⟩
    · simp [TreeMap.insert, hr, hnil]
    · rw [hnil] at hcount
      simp [TreeMap.contents, records, hcount]
    · rintro n t heq
      cases heq
      refine ⟨hcapOk, ⟨List.pairwise_singleton _ _, fun e _ => inRange_none e.1⟩, ?_, ?_⟩
      · have hb := hrec.bound
        simp only [leafPayload, List.map_cons, List.map_nil, List.sum_cons, List.sum_nil,
          List.length_cons, List.length_nil, leafOverhead, LeafShape.k] at hb ⊢
        omega
      · intro e he
        obtain rfl : e = (key, rec) := by simpa using he
        exact hrec
    · rw [hnil]
      rfl
  | some root =>
    obtain ⟨n, t⟩ := root
    obtain ⟨-, hord, hfit⟩ := h.tree n t hr
    have hcont : m.contents = records n t := by simp [TreeMap.contents, hr]
    obtain ⟨g, old, hins, hall⟩ := insert_fits hcapOk hord (inRange_none key) hfit hrec
    obtain ⟨hwithin, hnew, rfl⟩ := PMap.insert_spec cap shape hord (inRange_none key) hins
    obtain ⟨hord', hfit', hrecs⟩ := growRoot_spec hwithin hall hcapOk
    rw [hcont] at hlen hcount ⊢
    refine ⟨⟨some (growRoot g),
      if (SortedMap.get key (records n t)).isNone then m.count + 1 else m.count⟩, ?_, ⟨?_, ?_⟩, ?_⟩
    · simp only [TreeMap.insert, hr, hins, Option.bind_eq_bind, Option.bind_some, Option.isNone_map]
    · simp only [TreeMap.contents, hrecs, hnew, hlen, hcount]
      split <;> simp
    · intro n' t' heq
      have hroot : growRoot g = ⟨n', t'⟩ := Option.some.inj heq
      rw [hroot] at hord' hfit'
      exact ⟨hcapOk, hord', hfit'⟩
    · simp only [TreeMap.contents, hrecs, hnew]

theorem collapseRoot_spec {n : Nat} {t : Tree ρ n} (hord : Ordered n none none t)
    (hfit : Fits cap shape n t) :
    ∃ root, collapseRoot n t = some root ∧
      (∀ n' t', root = some ⟨n', t'⟩ → Ordered n' none none t' ∧ Fits cap shape n' t') ∧
      (match root with
        | none => []
        | some ⟨n', t'⟩ => records n' t') = records n t := by
  cases n with
  | zero =>
    refine ⟨_, rfl, ?_, ?_⟩
    · intro n' t' heq
      split at heq
      · cases heq
      · cases heq
        exact ⟨hord, hfit⟩
    · cases hes : (t : Leaf ρ) with
      | nil => rfl
      | cons e es => rfl
  | succ n =>
    simp only [collapseRoot]
    split
    · rename_i hkeys
      have hkeys := List.isEmpty_iff.mp hkeys
      have hchain : KeyChain.Chain (Ordered n) none t.keys t.children none := hord
      rw [hkeys] at hchain
      obtain ⟨c, hc, -, hcord⟩ := KeyChain.chain_nil.mp hchain
      refine ⟨some ⟨n, c⟩, by simp [hc], ?_, ?_⟩
      · rintro n' t' heq
        cases heq
        exact ⟨hcord, hfit.2.2.2 c (by simp [hc])⟩
      · simp [records, hc]
    · refine ⟨_, rfl, ?_, rfl⟩
      rintro n' t' heq
      cases heq
      exact ⟨hord, hfit⟩

/-- Remove is the sorted map's erase, and returns what the key was bound to. -/
theorem TreeMap.remove_spec (h : m.Ok cap shape) (key : Bytes) :
    ∃ m', m.remove cap shape key = some ((SortedMap.get key m.contents).map Rec.row, m') ∧
      m'.Ok cap shape ∧ m'.contents = SortedMap.erase key m.contents := by
  have hlen := SortedMap.length_erase h.sorted key
  have hcount := h.count
  cases hr : m.root with
  | none =>
    have hnil : m.contents = [] := by simp [TreeMap.contents, hr]
    exact ⟨m, by simp [TreeMap.remove, hr, hnil], h, by simp [hnil, SortedMap.erase]⟩
  | some root =>
    obtain ⟨n, t⟩ := root
    obtain ⟨hcap, hord, hfit⟩ := h.tree n t hr
    have hcont : m.contents = records n t := by simp [TreeMap.contents, hr]
    obtain ⟨old, t', hrem, hfit'⟩ := remove_fits hcap hord (inRange_none key) hfit
    obtain ⟨hord', hrecs, rfl⟩ := PMap.remove_spec cap shape hord (inRange_none key) hrem
    rw [hcont] at hlen hcount ⊢
    cases hget : SortedMap.get key (records n t) with
    | none =>
      refine ⟨m, ?_, h, ?_⟩
      · simp [TreeMap.remove, hr, hrem, hget]
      · rw [hcont, SortedMap.erase_of_absent]
        intro e he heq
        simp only [SortedMap.get, Option.map_eq_none_iff, List.find?_eq_none] at hget
        exact hget e he (by simpa using heq)
    | some r =>
      obtain ⟨root', hroot, htree, hrecs'⟩ := collapseRoot_spec hord' hfit'
      have hcontents : TreeMap.contents ⟨root', m.count - 1⟩ = SortedMap.erase key (records n t) := by
        rw [← hrecs, ← hrecs']
        rfl
      refine ⟨⟨root', m.count - 1⟩, ?_, ⟨?_, ?_⟩, hcontents⟩
      · simp [TreeMap.remove, hr, hrem, hget, hroot]
      · have hpos : 0 < (records n t).length := by
          cases hnil : records n t with
          | nil => simp [hnil] at hget
          | cons => simp
        rw [hcontents, hlen, hcount, hget]
        simp only [Option.isNone_some, Bool.false_eq_true, if_false]
        omega
      · intro n' t'' heq
        exact ⟨hcap, htree n' t'' heq⟩

end Jed.PMap
