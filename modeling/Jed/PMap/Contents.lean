import Jed.PMap.Ordered

/-!
# Insert and remove on the contents

Whatever splits, merges and abandoned merges an operation goes through, the ordered tree it leaves
holds exactly what the sorted map holds after the same operation.
-/

namespace Jed.PMap

open KeyChain Splice

variable {ρ : Type}

variable {m : Nat}

/-- A split point lies in the range it is chosen from. -/
theorem splitPoint_mem {mLo mHi payload cap : Nat} {rightEdge : Bool} {left right : Nat → Nat}
    (h : splitPoint mLo mHi payload cap rightEdge left right = some m) :
    mLo ≤ m ∧ m ≤ mHi := by
  have hrange : ∀ x ∈ List.range' mLo (mHi + 1 - mLo), mLo ≤ x ∧ x ≤ mHi := by
    intro x hx
    rw [List.mem_range'_1] at hx
    omega
  unfold splitPoint at h
  dsimp only at h
  split at h
  · cases h
  · rename_i mMax hMax
    have hmax := hrange mMax (List.takeWhile_subset _ (List.mem_of_getLast? hMax))
    split at h
    · cases h
    · rename_i mMin hMin
      have hmin := hrange mMin
        (List.mem_reverse.mp (List.takeWhile_subset _ (List.mem_of_getLast? hMin)))
      split at h
      · cases h
      · split at h
        · obtain rfl : mMax = m := by simpa using h
          exact hmax
        · obtain rfl := (Option.some.inj h)
          generalize hb : List.find? (fun m => decide (2 * left m ≥ payload)) _ = found
          have hbal : mLo ≤ found.getD mMax ∧ found.getD mMax ≤ mHi := by
            cases found with
            | none => exact hmax
            | some b => exact hrange b (List.mem_of_find?_eq_some hb)
          omega

variable {cap : Cap} {edited : Option Nat}

theorem leafSplitPoint_mem {weights : List Nat} {shape : LeafShape}
    (h : leafSplitPoint weights cap shape edited = some m) :
    1 ≤ m ∧ m < weights.length := by
  unfold leafSplitPoint at h
  dsimp only at h
  split at h
  · cases h
  · have hm := splitPoint_mem h
    omega

theorem interiorSplitPoint_mem {keys : List Bytes}
    (h : interiorSplitPoint keys cap edited = some m) : 1 ≤ m ∧ m < keys.length := by
  unfold interiorSplitPoint at h
  dsimp only at h
  split at h
  · rename_i h2
    obtain rfl : 1 = m := by simpa using h
    simp only [beq_iff_eq] at h2
    omega
  · have hm := splitPoint_mem h
    omega

variable {es : Leaf ρ} {lo hi : Option Bytes}

theorem buildLeaf_within (h : Ordered 0 lo hi es) (cap : Cap) (shape : LeafShape) (edited : Option Nat) :
    (buildLeaf es cap shape edited).Within (Ordered 0) lo hi ∧
      (buildLeaf es cap shape edited).contents (records 0) = es := by
  obtain ⟨hsorted, hrange⟩ := h
  unfold buildLeaf
  split
  · exact ⟨⟨hsorted, hrange⟩, rfl⟩
  · rename_i m hm
    obtain ⟨hm1, hmn⟩ := leafSplitPoint_mem hm
    rw [List.length_map] at hmn
    split
    · exact ⟨⟨hsorted, hrange⟩, rfl⟩
    · rename_i e right hdrop
      have hcut : es = es.take m ++ e :: right := by rw [← hdrop, List.take_append_drop]
      rw [hcut] at hsorted
      obtain ⟨hl, hr, hlr⟩ := SortedMap.Sorted.append_iff.mp hsorted
      have hleft : ∀ x ∈ es.take m, x ∈ es := fun x hx => List.mem_of_mem_take hx
      have hright : ∀ x ∈ e :: right, x ∈ es := fun x hx => List.mem_of_mem_drop (hdrop ▸ hx)
      -- the left half is not empty, so the separator is strictly above the low bound
      obtain ⟨x, hx⟩ : ∃ x, x ∈ es.take m :=
        List.exists_mem_of_length_pos (by rw [List.length_take]; omega)
      refine ⟨⟨?_, ⟨hl, ?_⟩, ?_, ⟨hr, ?_⟩⟩, ?_⟩
      · intro a ha b hb
        obtain rfl : e.1 = b := by simpa using hb
        exact ((hrange x (hleft x hx)).above a ha).trans_lt (hlr x hx e List.mem_cons_self)
      · intro y hy
        refine ⟨(hrange y (hleft y hy)).above, fun b hb => ?_⟩
        obtain rfl : e.1 = b := by simpa using hb
        exact hlr y hy e List.mem_cons_self
      · intro a ha b hb
        obtain rfl : e.1 = a := by simpa using ha
        exact (hrange e (hright e List.mem_cons_self)).below b hb
      · intro y hy
        refine ⟨fun a ha => ?_, (hrange y (hright y hy)).below⟩
        obtain rfl : e.1 = a := by simpa using ha
        rcases List.mem_cons.mp hy with rfl | hy
        · exact le_rfl
        · exact ((SortedMap.Sorted.cons_iff.mp hr).1 y hy).le
      · exact hcut.symm

variable {n : Nat}

theorem buildInterior_within {t : Inner (Tree ρ n)} (h : Chain (Ordered n) lo t.keys t.children hi)
    {g : Grown (Inner (Tree ρ n))} (hg : buildInterior t cap edited = some g) :
    g.Within (Ordered (n + 1)) lo hi ∧
      g.contents (records (n + 1)) = t.children.flatMap (records n) := by
  unfold buildInterior at hg
  split at hg
  · obtain rfl := Option.some.inj hg
    exact ⟨h, rfl⟩
  · simp only [Option.bind_eq_bind, Option.bind_eq_some_iff] at hg
    obtain ⟨m, hm, sep, hsep, hg⟩ := hg
    obtain rfl := Option.some.inj hg
    obtain ⟨-, hmn⟩ := interiorSplitPoint_mem hm
    have hlen := h.length
    rw [eq_cut hsep, ← List.take_append_drop (m + 1) t.children,
      chain_append (by simp; omega)] at h
    obtain ⟨hleft, hright⟩ := h
    refine ⟨⟨hleft.below, hleft, hright.below, hright⟩, ?_⟩
    simp only [Grown.contents, records]
    rw [← List.flatMap_append, List.take_append_drop]

theorem leafInsert_spec (hs : SortedMap.Sorted es) (key : Bytes) (rec : Rec ρ) :
    (leafInsert es key rec).1 = SortedMap.insert key rec es ∧
      (leafInsert es key rec).2.2 = (SortedMap.get key es).map Rec.row := by
  have hsearch := searchKeys_spec hs key
  unfold leafInsert
  cases hres : searchKeys (es.map Prod.fst) key with
  | ok i =>
    simp only [hres] at hsearch ⊢
    obtain ⟨l, old, r, rfl, rfl, hl, hr⟩ := hsearch
    rw [SortedMap.insert_present l r hl, SortedMap.get_at_cut hl]
    simp [List.modify_eq_set_getElem?, set_eq]
  | error i =>
    simp only [hres] at hsearch ⊢
    obtain ⟨l, r, rfl, rfl, hl, hr⟩ := hsearch
    rw [SortedMap.insert_absent l r hl hr, SortedMap.get_between hl hr,
      insertIdx_eq (by simp)]
    simp

theorem leafInsert_ordered (h : Ordered 0 lo hi es) {key : Bytes} (hk : InRange lo hi key) (rec : Rec ρ) :
    Ordered 0 lo hi (leafInsert es key rec).1 := by
  change SortedMap.Sorted _ ∧ _
  rw [(leafInsert_spec h.1 key rec).1]
  refine ⟨h.1.insert key rec, fun e he => ?_⟩
  rcases SortedMap.mem_insert he with rfl | he
  · exact hk
  · exact h.2 e he

variable {i : Nat}

theorem grown_children {t : Inner (Tree ρ n)} (hi : i < t.children.length)
    (hk : i ≤ t.keys.length) (left right : Tree ρ n) (sep : Bytes) :
    (t.keys.insertIdx i sep = t.keys.take i ++ [sep] ++ t.keys.drop i) ∧
      (t.children.set i left).insertIdx (i + 1) right =
        t.children.take i ++ [left, right] ++ t.children.drop (i + 1) := by
  rw [insertIdx_eq hk, set_insertIdx_eq hi]
  simp

/-- Updating the child a key routes to updates the contents of the whole node. -/
theorem records_update {t : Inner (Tree ρ n)} {lo' hi' : Option Bytes}
    {c : Tree ρ n} {key : Bytes} (hc : t.children[i]? = some c)
    (hb : Before (Ordered n) lo (t.keys.take i) (t.children.take i) lo')
    (ha : After (Ordered n) hi' (t.keys.drop i) (t.children.drop (i + 1)) hi)
    (hr : InRange lo' hi' key) :
    ∃ l r : Leaf ρ, l = (t.children.take i).flatMap (records n) ∧
      r = (t.children.drop (i + 1)).flatMap (records n) ∧
      records (n + 1) t = l ++ records n c ++ r ∧
      (∀ e ∈ l, e.1 < key) ∧ ∀ e ∈ r, key < e.1 := by
  refine ⟨_, _, rfl, rfl, ?_, ?_, ?_⟩
  · simp only [records]
    conv_lhs => rw [eq_cut hc]
    simp
  · exact hb.contents_lt (fun _ _ _ hp => hp.records_inRange) hr.above
  · exact ha.contents_ge (fun _ _ _ hp => hp.records_inRange) hr.below

/-- Insert computes the sorted map's insert and stays within the bounds. -/
theorem insert_spec (cap : Cap) (shape : LeafShape) :
    ∀ {lo hi : Option Bytes} {t : Tree ρ n} {key : Bytes} {rec : Rec ρ} {g : Grown (Tree ρ n)}
      {old : Option ρ}, Ordered n lo hi t → InRange lo hi key →
      insertTree cap shape n t key rec = some (g, old) →
      g.Within (Ordered n) lo hi ∧
        g.contents (records n) = SortedMap.insert key rec (records n t) ∧
        old = (SortedMap.get key (records n t)).map Rec.row := by
  induction n with
  | zero =>
    intro lo hi t key rec g old h hk hins
    simp only [insertTree, Option.some.injEq] at hins
    obtain ⟨rfl, rfl⟩ := hins
    obtain ⟨hes, hold⟩ := leafInsert_spec h.1 key rec
    obtain ⟨hwithin, hnodes⟩ := buildLeaf_within (leafInsert_ordered h hk rec) cap shape
      (some (leafInsert t key rec).2.1)
    exact ⟨hwithin, hnodes.trans hes, hold⟩
  | succ n ih =>
    intro lo hi t key rec g old h hk hins
    obtain ⟨c, lo', hi', hc, hb, hr, hp, ha⟩ := Ordered.at_slot h hk
    simp only [insertTree] at hins
    generalize childSlot t.keys key = i at *
    simp only [hc, Option.bind_eq_bind, Option.bind_some,
      Option.bind_eq_some_iff] at hins
    obtain ⟨⟨sub, old'⟩, hsub, hins⟩ := hins
    obtain ⟨hwithin, hnodes, hold⟩ := ih hp hr hsub
    obtain ⟨l, r, hl, hr', hrec, hlt, hgt⟩ := records_update hc hb ha hr
    have hil := (List.getElem?_eq_some_iff.mp hc).1
    have hchain := hb.splice (hwithin.chain hr.trans_below) ha
    have hcontents : (t.children.take i ++ sub.nodes ++ t.children.drop (i + 1)).flatMap (records n) =
        SortedMap.insert key rec (records (n + 1) t) := by
      rw [List.flatMap_append, List.flatMap_append, Grown.flatMap_nodes, hnodes, ← hl, ← hr', hrec,
        List.append_assoc, List.append_assoc, SortedMap.insert_append_left _ _ hlt,
        SortedMap.insert_append_right _ _ hgt]
    have hget : SortedMap.get key (records n c) = SortedMap.get key (records (n + 1) t) := by
      rw [hrec, List.append_assoc, SortedMap.get_append_left _ _ (fun e he => (hlt e he).ne),
        SortedMap.get_append_right _ _ (fun e he => (hgt e he).ne')]
    cases sub with
    | whole c' =>
      simp only [Option.some.injEq, Prod.mk.injEq] at hins
      obtain ⟨rfl, rfl⟩ := hins
      simp only [Grown.seps, Grown.nodes, List.append_nil, List.append_assoc, List.cons_append,
        List.nil_append, List.take_append_drop, ← set_eq hil] at hchain hcontents
      refine ⟨hchain, ?_, hget ▸ hold⟩
      exact hcontents
    | split left sep right =>
      simp only [Option.bind_eq_some_iff, Option.some.injEq] at hins
      obtain ⟨g', hg', rfl, rfl⟩ := hins
      have hkl : i ≤ t.keys.length := by
        have := Chain.length h
        omega
      obtain ⟨hks, hcs⟩ := grown_children hil hkl left right sep
      simp only [Grown.seps, Grown.nodes] at hchain hcontents
      rw [← hks, ← hcs] at hchain
      rw [← hcs] at hcontents
      obtain ⟨hw, hn⟩ := buildInterior_within hchain hg'
      exact ⟨hw, hn.trans hcontents, hget ▸ hold⟩

theorem replacePair_eq {τ : Type} {t : Inner τ} {j : Nat} (hj : j + 1 < t.children.length)
    (hk : j < t.keys.length) (g : Grown τ) :
    replacePair t j g = ⟨t.keys.take j ++ g.seps ++ t.keys.drop (j + 1),
      t.children.take j ++ g.nodes ++ t.children.drop (j + 2)⟩ := by
  cases g with
  | whole m => simp [replacePair, Grown.seps, Grown.nodes, set_eraseIdx_eq hj, eraseIdx_eq t.keys]
  | split left sep right =>
    simp [replacePair, Grown.seps, Grown.nodes, set_eq hk, set_set_eq hj]

theorem mergedPair_within (cap : Cap) (shape : LeafShape) {l r : Tree ρ n}
    {sep : Bytes} {g : Grown (Tree ρ n)} (hlo : Below lo (some sep))
    (hl : Ordered n lo (some sep) l) (hr : Ordered n (some sep) hi r) (hhi : Below (some sep) hi)
    (hg : mergedPair cap shape n l sep r = some g) :
    g.Within (Ordered n) lo hi ∧ g.contents (records n) = records n l ++ records n r := by
  cases n with
  | zero =>
    obtain rfl := Option.some.inj hg
    refine buildLeaf_within ⟨?_, ?_⟩ cap shape none
    · refine SortedMap.Sorted.append_iff.mpr ⟨hl.1, hr.1, fun a ha b hb => ?_⟩
      exact ((hl.2 a ha).below sep rfl).trans_le ((hr.2 b hb).above sep rfl)
    · intro e he
      rcases List.mem_append.mp he with he | he
      · exact ⟨(hl.2 e he).above, fun b hb =>
          ((hl.2 e he).below sep rfl).trans (hhi sep rfl b hb)⟩
      · exact ⟨fun a ha => (hlo a ha sep rfl).le.trans ((hr.2 e he).above sep rfl),
          (hr.2 e he).below⟩
  | succ n =>
    have hchain : Chain (Ordered n) lo (l.keys ++ sep :: r.keys) (l.children ++ r.children) hi :=
      (chain_append (Chain.length hl)).mpr ⟨hl, hr⟩
    obtain ⟨hw, hn⟩ := buildInterior_within (t := ⟨_, _⟩) hchain hg
    exact ⟨hw, hn.trans (List.flatMap_append ..)⟩

theorem mergeAt_ordered (cap : Cap) (shape : LeafShape) {t t' : Inner (Tree ρ n)}
    {j : Nat} (h : Chain (Ordered n) lo t.keys t.children hi)
    (hm : mergeAt cap shape n t j = some t') :
    Chain (Ordered n) lo t'.keys t'.children hi ∧
      t'.children.flatMap (records n) = t.children.flatMap (records n) := by
  simp only [mergeAt, Option.bind_eq_bind, Option.bind_eq_some_iff] at hm
  obtain ⟨l, hl, r, hr, sep, hsep, hm⟩ := hm
  split at hm
  · obtain rfl := Option.some.inj hm
    exact ⟨h, rfl⟩
  · rename_i g hg
    obtain rfl := Option.some.inj hm
    split
    · exact ⟨h, rfl⟩
    · obtain ⟨hj, -⟩ := List.getElem?_eq_some_iff.mp hr
      obtain ⟨hk, hsepEq⟩ := List.getElem?_eq_some_iff.mp hsep
      obtain ⟨lo', hi', hb, hlt, hpl, ha⟩ := Chain.open h hl
      rw [List.drop_eq_getElem_cons hk, hsepEq] at ha
      obtain ⟨rfl, u, us, hi'', hus, hlt', hpu, ha'⟩ := ha.cons_open
      obtain ⟨rfl, rfl⟩ : r = u ∧ t.children.drop (j + 2) = us := by
        obtain ⟨hj', hrEq⟩ := List.getElem?_eq_some_iff.mp hr
        rw [List.drop_eq_getElem_cons hj', hrEq] at hus
        exact List.cons.inj hus
      obtain ⟨hw, hn⟩ := mergedPair_within cap shape hlt hpl hpu hlt' hg
      have hbelow : Below lo' hi'' := fun a ha b hb => (hlt a ha sep rfl).trans (hlt' sep rfl b hb)
      rw [replacePair_eq hj hk]
      refine ⟨hb.splice (hw.chain hbelow) ha', ?_⟩
      simp only [List.flatMap_append, Grown.flatMap_nodes, hn]
      conv_rhs => rw [eq_cut_pair hl hr]
      simp

theorem rebalanceChild_ordered (cap : Cap) (shape : LeafShape) {t t' : Inner (Tree ρ n)}
    (h : Chain (Ordered n) lo t.keys t.children hi)
    (hr : rebalanceChild cap shape n t i = some t') :
    Chain (Ordered n) lo t'.keys t'.children hi ∧
      t'.children.flatMap (records n) = t.children.flatMap (records n) := by
  simp only [rebalanceChild, Option.bind_eq_bind, Option.bind_eq_some_iff] at hr
  obtain ⟨c, -, hr⟩ := hr
  split at hr
  · obtain rfl := Option.some.inj hr
    exact ⟨h, rfl⟩
  · split at hr
    · obtain rfl := Option.some.inj hr
      exact ⟨h, rfl⟩
    · exact mergeAt_ordered cap shape h hr

/-- Remove computes the sorted map's erase; an absent key leaves the tree as it is. -/
theorem remove_spec (cap : Cap) (shape : LeafShape) :
    ∀ {lo hi : Option Bytes} {t t' : Tree ρ n} {key : Bytes} {old : Option ρ},
      Ordered n lo hi t → InRange lo hi key → removeTree cap shape n t key = some (old, t') →
      Ordered n lo hi t' ∧ records n t' = SortedMap.erase key (records n t) ∧
        old = (SortedMap.get key (records n t)).map Rec.row := by
  induction n with
  | zero =>
    intro lo hi t t' key old h hk hrem
    have hsearch := searchKeys_spec h.1 key
    simp only [removeTree] at hrem
    cases hres : searchKeys (List.map Prod.fst t) key with
    | error i =>
      simp only [hres, Option.some.injEq] at hsearch hrem
      obtain ⟨l, r, rfl, -, hl, hr⟩ := hsearch
      obtain ⟨rfl, rfl⟩ := hrem
      refine ⟨h, (SortedMap.erase_of_absent fun e he => ?_).symm, ?_⟩
      · rcases List.mem_append.mp he with he | he
        · exact (hl e he).ne
        · exact (hr e he).ne'
      · rw [records, SortedMap.get_between hl hr]
        rfl
    | ok i =>
      simp only [hres, Option.some.injEq] at hsearch hrem
      obtain ⟨l, rec, r, rfl, rfl, hl, hr⟩ := hsearch
      obtain ⟨rfl, rfl⟩ := hrem
      have herase : (l ++ (key, rec) :: r).eraseIdx l.length = l ++ r := by simp [eraseIdx_eq]
      refine ⟨⟨?_, ?_⟩, ?_, ?_⟩
      · exact h.1.of_sublist (List.eraseIdx_sublist _ _)
      · exact fun e he => h.2 e (List.mem_of_mem_eraseIdx he)
      · rw [records, records, herase, SortedMap.erase_at_cut hl hr]
      · rw [records, SortedMap.get_at_cut hl]
        simp
  | succ n ih =>
    intro lo hi t t' key old h hk hrem
    obtain ⟨c, lo', hi', hc, hb, hr, hp, ha⟩ := Ordered.at_slot h hk
    simp only [removeTree] at hrem
    generalize childSlot t.keys key = i at *
    simp only [hc, Option.bind_eq_bind, Option.bind_some,
      Option.bind_eq_some_iff] at hrem
    obtain ⟨⟨removed, c'⟩, hsub, hrem⟩ := hrem
    obtain ⟨hord, hrecs, hold⟩ := ih hp hr hsub
    obtain ⟨l, r, hl, hr', hrec, hlt, hgt⟩ := records_update hc hb ha hr
    have hget : SortedMap.get key (records n c) = SortedMap.get key (records (n + 1) t) := by
      rw [hrec, List.append_assoc, SortedMap.get_append_left _ _ (fun e he => (hlt e he).ne),
        SortedMap.get_append_right _ _ (fun e he => (hgt e he).ne')]
    cases removed with
    | none =>
      simp only [Option.some.injEq, Prod.mk.injEq] at hrem
      obtain ⟨rfl, rfl⟩ := hrem
      have hnone : SortedMap.get key (records (n + 1) t) = none := by
        simpa [hget] using hold.symm
      refine ⟨h, (SortedMap.erase_of_absent fun e he heq => ?_).symm, by rw [hnone]; rfl⟩
      subst heq
      simp only [SortedMap.get, Option.map_eq_none_iff, List.find?_eq_none,
        decide_eq_true_eq] at hnone
      exact hnone e he rfl
    | some row =>
      simp only [Option.bind_eq_some_iff, Option.some.injEq] at hrem
      obtain ⟨t₂, hreb, rfl, rfl⟩ := hrem
      have hil := (List.getElem?_eq_some_iff.mp hc).1
      have hchain : Chain (Ordered n) lo t.keys (t.children.set i c') hi := by
        have := hb.splice (k := []) (t := [c']) ⟨hr.trans_below, hord⟩ ha
        simpa [set_eq hil] using this
      obtain ⟨hchain', hcontents⟩ := rebalanceChild_ordered cap shape (t := ⟨_, _⟩) hchain hreb
      refine ⟨hchain', ?_, hget ▸ hold⟩
      refine hcontents.trans ?_
      rw [set_eq hil, List.flatMap_append, List.flatMap_cons, ← hl, ← hr', hrecs,
        hrec, SortedMap.erase_append, SortedMap.erase_append,
        SortedMap.erase_of_absent (fun e he => (hlt e he).ne),
        SortedMap.erase_of_absent (m := r) (fun e he => (hgt e he).ne'), List.append_assoc]

end Jed.PMap
