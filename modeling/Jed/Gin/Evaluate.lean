import Jed.Gin.ProbeGroups

/-!
# A gather is its query tree

The candidates of a tree are the storage keys that the tree is true of, when a term is true of the keys
it is posted for: an intersection loses none and invents none, however it is ordered and grouped.
-/

namespace Jed.Gin

open PrefixOrder PMap Window

/-- Whether a tree is true of a storage key. -/
def GinTree.Holds (P : Finset (Bytes × Bytes)) (key : Bytes) : GinTree → Prop
  | .term t => (t, key) ∈ P
  | .and leaves rest => (∀ t ∈ leaves, (t, key) ∈ P) ∧ ∀ child ∈ rest, child.Holds P key
  | .or leaves rest => (∃ t ∈ leaves, (t, key) ∈ P) ∨ ∃ child, ∃ _ : child ∈ rest, child.Holds P key

/-- Whether a tree is a node of a kind. -/
def GinTree.IsNode (conj : Bool) : GinTree → Prop
  | .term _ => False
  | .and _ _ => conj = true
  | .or _ _ => conj = false

/-- Trees over some terms as they are normalized: a node has its terms in order, and no child of its own
    kind; and it is not a single term or child. -/
inductive GinTree.Normalized (T : Set Bytes) : GinTree → Prop where
  | term {t : Bytes} (h : t ∈ T) : Normalized T (.term t)
  | and {leaves : List Bytes} {rest : List GinTree} (hleaves : ∀ t ∈ leaves, t ∈ T)
      (hasc : leaves.Pairwise (· < ·)) (hmany : 2 ≤ leaves.length + rest.length)
      (hkind : ∀ child ∈ rest, child.IsNode false) (hrest : ∀ child ∈ rest, Normalized T child) :
      Normalized T (.and leaves rest)
  | or {leaves : List Bytes} {rest : List GinTree} (hleaves : ∀ t ∈ leaves, t ∈ T)
      (hasc : leaves.Pairwise (· < ·)) (hmany : 2 ≤ leaves.length + rest.length)
      (hkind : ∀ child ∈ rest, child.IsNode true) (hrest : ∀ child ∈ rest, Normalized T child) :
      Normalized T (.or leaves rest)

/-- Keys that are all of what they are asked for, in order. -/
structure Gathers (K : Set Bytes) (p : Bytes → Prop) (keys : List Bytes) : Prop where
  ascending : keys.Pairwise (· < ·)
  mem : ∀ k, k ∈ keys ↔ p k
  stored : ∀ k ∈ keys, k ∈ K

/-- What a node takes over from one of its nodes: terms, and children of the other kind. -/
theorem GinTree.Normalized.splice {T : Set Bytes} {node : GinTree} (h : node.Normalized T)
    (conj : Bool) : (∀ t ∈ (node.splice conj).1, t ∈ T) ∧
      (∀ child ∈ (node.splice conj).2, child.IsNode (!conj) ∧ child.Normalized T) ∧
      0 < (node.splice conj).1.length + (node.splice conj).2.length := by
  cases h with
  | term ht =>
    refine ⟨fun t' ht' => ?_, (fun child hchild => by cases hchild), Nat.one_pos⟩
    rwa [List.mem_singleton.mp ht']
  | @and leaves rest hleaves hasc hmany hkind hrest =>
    cases conj with
    | true => exact ⟨hleaves, fun child hchild => ⟨hkind child hchild, hrest child hchild⟩, by
        show 0 < leaves.length + rest.length
        omega⟩
    | false =>
      refine ⟨(fun t ht => by cases ht), fun child hchild => ?_, Nat.one_pos⟩
      rw [List.mem_singleton.mp hchild]
      exact ⟨rfl, .and hleaves hasc hmany hkind hrest⟩
  | @or leaves rest hleaves hasc hmany hkind hrest =>
    cases conj with
    | false => exact ⟨hleaves, fun child hchild => ⟨hkind child hchild, hrest child hchild⟩, by
        show 0 < leaves.length + rest.length
        omega⟩
    | true =>
      refine ⟨(fun t ht => by cases ht), fun child hchild => ?_, Nat.one_pos⟩
      rw [List.mem_singleton.mp hchild]
      exact ⟨rfl, .or hleaves hasc hmany hkind hrest⟩

theorem GinTree.holds_splice (P : Finset (Bytes × Bytes)) (k : Bytes) (node : GinTree) :
    (node.Holds P k ↔ (∀ t ∈ (node.splice true).1, (t, k) ∈ P) ∧
      ∀ child ∈ (node.splice true).2, child.Holds P k) ∧
    (node.Holds P k ↔ (∃ t ∈ (node.splice false).1, (t, k) ∈ P) ∨
      ∃ child ∈ (node.splice false).2, child.Holds P k) := by
  cases node with
  | term t => simp [GinTree.splice, GinTree.Holds]
  | and leaves rest => simp [GinTree.splice, GinTree.Holds]
  | or leaves rest => simp [GinTree.splice, GinTree.Holds]

/-- The nodes that a tree is normalized from are true together, or one of them, as it is. -/
theorem GinTree.normalize_holds {T : Set Bytes} (conj : Bool) {nodes : List GinTree} (hne : nodes ≠ [])
    (h : ∀ node ∈ nodes, node.Normalized T) : (GinTree.normalize conj nodes).Normalized T ∧
      ∀ P k, (GinTree.normalize conj nodes).Holds P k ↔
        if conj then ∀ node ∈ nodes, node.Holds P k else ∃ node ∈ nodes, node.Holds P k := by
  have hleaves : ∀ t, t ∈ (nodes.flatMap fun node => (node.splice conj).1).toFinset.sort ↔
      ∃ node ∈ nodes, t ∈ (node.splice conj).1 := by
    intro t
    rw [Finset.mem_sort, List.mem_toFinset, List.mem_flatMap]
  have hrest : ∀ c, c ∈ (nodes.flatMap fun node => (node.splice conj).2) ↔
      ∃ node ∈ nodes, c ∈ (node.splice conj).2 := fun c => List.mem_flatMap
  have hasc := (Finset.sortedLT_sort (nodes.flatMap fun node => (node.splice conj).1).toFinset).pairwise
  have hsome : 0 < (nodes.flatMap fun node => (node.splice conj).1).toFinset.sort.length +
      (nodes.flatMap fun node => (node.splice conj).2).length := by
    obtain ⟨node, hnode⟩ := List.exists_mem_of_ne_nil nodes hne
    rcases Nat.add_pos_iff_pos_or_pos.mp ((h node hnode).splice conj).2.2 with hpos | hpos
    · obtain ⟨t, ht⟩ := List.exists_mem_of_length_pos hpos
      have := List.length_pos_of_mem ((hleaves t).mpr ⟨node, hnode, ht⟩)
      omega
    · obtain ⟨c, hc⟩ := List.exists_mem_of_length_pos hpos
      have := List.length_pos_of_mem ((hrest c).mpr ⟨node, hnode, hc⟩)
      omega
  have hterms : ∀ t ∈ (nodes.flatMap fun node => (node.splice conj).1).toFinset.sort, t ∈ T := by
    intro t ht
    obtain ⟨node, hnode, ht⟩ := (hleaves t).mp ht
    exact ((h node hnode).splice conj).1 t ht
  have hchildren : ∀ c ∈ (nodes.flatMap fun node => (node.splice conj).2),
      c.IsNode (!conj) ∧ c.Normalized T := by
    intro c hc
    obtain ⟨node, hnode, hc⟩ := (hrest c).mp hc
    exact ((h node hnode).splice conj).2.1 c hc
  have htruth : ∀ P k, (if conj then ∀ node ∈ nodes, node.Holds P k else ∃ node ∈ nodes, node.Holds P k) ↔
      if conj then
        (∀ t ∈ (nodes.flatMap fun node => (node.splice conj).1).toFinset.sort, (t, k) ∈ P) ∧
          ∀ c ∈ (nodes.flatMap fun node => (node.splice conj).2), c.Holds P k
      else
        (∃ t ∈ (nodes.flatMap fun node => (node.splice conj).1).toFinset.sort, (t, k) ∈ P) ∨
          ∃ c ∈ (nodes.flatMap fun node => (node.splice conj).2), c.Holds P k := by
    intro P k
    cases conj with
    | true =>
      rw [if_pos rfl, if_pos rfl]
      have hnode := fun node => (GinTree.holds_splice P k node).1
      constructor
      · intro hall
        refine ⟨fun t ht => ?_, fun c hc => ?_⟩
        · obtain ⟨node, hmem, ht⟩ := (hleaves t).mp ht
          exact ((hnode node).mp (hall node hmem)).1 t ht
        · obtain ⟨node, hmem, hc⟩ := (hrest c).mp hc
          exact ((hnode node).mp (hall node hmem)).2 c hc
      · rintro ⟨hterms, hchildren⟩ node hmem
        exact (hnode node).mpr ⟨fun t ht => hterms t ((hleaves t).mpr ⟨node, hmem, ht⟩),
          fun c hc => hchildren c ((hrest c).mpr ⟨node, hmem, hc⟩)⟩
    | false =>
      rw [if_neg Bool.false_ne_true, if_neg Bool.false_ne_true]
      have hnode := fun node => (GinTree.holds_splice P k node).2
      constructor
      · rintro ⟨node, hmem, hholds⟩
        rcases (hnode node).mp hholds with ⟨t, ht, hholds⟩ | ⟨c, hc, hholds⟩
        · exact .inl ⟨t, (hleaves t).mpr ⟨node, hmem, ht⟩, hholds⟩
        · exact .inr ⟨c, (hrest c).mpr ⟨node, hmem, hc⟩, hholds⟩
      · rintro (⟨t, ht, hholds⟩ | ⟨c, hc, hholds⟩)
        · obtain ⟨node, hmem, ht⟩ := (hleaves t).mp ht
          exact ⟨node, hmem, (hnode node).mpr (.inl ⟨t, ht, hholds⟩)⟩
        · obtain ⟨node, hmem, hc⟩ := (hrest c).mp hc
          exact ⟨node, hmem, (hnode node).mpr (.inr ⟨c, hc, hholds⟩)⟩
  unfold GinTree.normalize
  dsimp only
  generalize (nodes.flatMap fun node => (node.splice conj).1).toFinset.sort = leaves at *
  generalize (nodes.flatMap fun node => (node.splice conj).2) = rest at *
  split
  · exact ⟨.term (hterms _ List.mem_cons_self), fun P k => by
      rw [htruth]
      cases conj <;> simp [GinTree.Holds]⟩
  · exact ⟨(hchildren _ List.mem_cons_self).2, fun P k => by
      rw [htruth]
      cases conj <;> simp⟩
  · rename_i hterm hchild
    have hmany : 2 ≤ leaves.length + rest.length := by
      cases leaves with
      | nil =>
        cases rest with
        | nil => cases hsome
        | cons c rest =>
          cases rest with
          | nil => exact absurd rfl (hchild c rfl)
          | cons c' rest =>
            simp only [List.length_cons]
            omega
      | cons t leaves =>
        cases leaves with
        | nil =>
          cases rest with
          | nil => exact absurd rfl (hterm t rfl)
          | cons c rest =>
            simp only [List.length_cons]
            omega
        | cons t' leaves =>
          simp only [List.length_cons]
          omega
    cases conj with
    | true =>
      refine ⟨.and hterms (hasc.imp id) hmany (fun c hc => (hchildren c hc).1)
        (fun c hc => (hchildren c hc).2), fun P k => ?_⟩
      rw [htruth, if_pos rfl, if_pos rfl, GinTree.Holds]
    | false =>
      refine ⟨.or hterms (hasc.imp id) hmany (fun c hc => (hchildren c hc).1)
        (fun c hc => (hchildren c hc).2), fun P k => ?_⟩
      rw [htruth, if_neg Bool.false_ne_true, if_neg Bool.false_ne_true, GinTree.Holds]
      simp only [exists_prop]

/-- Whether an extracted query is true of a storage key. -/
def Node.Holds (P : Finset (Bytes × Bytes)) (key : Bytes) : Node → Prop
  | .entry t => (t, key) ∈ P
  | .and children => ∀ child ∈ children, child.Holds P key
  | .or children => ∃ child, ∃ _ : child ∈ children, child.Holds P key

/-- Queries over some terms as they are extracted: no node is without children. -/
inductive Node.Extracted (T : Set Bytes) : Node → Prop where
  | entry {t : Bytes} (h : t ∈ T) : Extracted T (.entry t)
  | and {children : List Node} (hne : children ≠ []) (h : ∀ child ∈ children, Extracted T child) :
      Extracted T (.and children)
  | or {children : List Node} (hne : children ≠ []) (h : ∀ child ∈ children, Extracted T child) :
      Extracted T (.or children)

theorem Node.intoTree_spec {T : Set Bytes} {node : Node} (h : node.Extracted T) :
    node.intoTree.Normalized T ∧ ∀ P k, node.intoTree.Holds P k ↔ node.Holds P k := by
  induction h with
  | entry ht =>
    rw [intoTree]
    exact ⟨.term ht, fun P k => by rw [GinTree.Holds, Holds]⟩
  | @and children hne h ih =>
    have hnodes : ∀ node ∈ children.map intoTree, node.Normalized T :=
      List.forall_mem_map.mpr fun child hchild => (ih child hchild).1
    obtain ⟨hnormal, hholds⟩ := GinTree.normalize_holds true (by simpa using hne) hnodes
    rw [intoTree]
    refine ⟨hnormal, fun P k => (hholds P k).trans ?_⟩
    rw [if_pos rfl, List.forall_mem_map, Holds]
    exact forall₂_congr fun child hchild => (ih child hchild).2 P k
  | @or children hne h ih =>
    have hnodes : ∀ node ∈ children.map intoTree, node.Normalized T :=
      List.forall_mem_map.mpr fun child hchild => (ih child hchild).1
    obtain ⟨hnormal, hholds⟩ := GinTree.normalize_holds false (by simpa using hne) hnodes
    rw [intoTree]
    refine ⟨hnormal, fun P k => (hholds P k).trans ?_⟩
    rw [if_neg Bool.false_ne_true, Holds]
    simp only [List.mem_map, exists_exists_and_eq_and, exists_prop]
    exact exists_congr fun child => and_congr_right fun hchild => (ih child hchild).2 P k

variable {T K : Set Bytes} {P : Finset (Bytes × Bytes)} {lists : Bytes → List (List Bytes)}
  {istore : TreeMap Unit} (hT : PrefixFree T) (hK : PrefixFree K) (hne : [] ∉ K)
  (hs : StoreOk T K lists (entryStore istore))
  (hP : ∀ t ∈ T, ∀ k, k ∈ (lists t).flatten ↔ (t, k) ∈ P)

theorem Gathers.congr {p q : Bytes → Prop} {keys : List Bytes} (h : Gathers K p keys)
    (hpq : ∀ k, p k ↔ q k) : Gathers K q keys :=
  ⟨h.ascending, fun k => (h.mem k).trans (hpq k), h.stored⟩

theorem Gathers.filter {p : Bytes → Prop} {keys : List Bytes} (h : Gathers K p keys) (q : Bytes → Bool) :
    Gathers K (fun k => p k ∧ q k = true) (keys.filter q) where
  ascending := h.ascending.filter q
  mem k := by rw [List.mem_filter, h.mem]
  stored k hk := h.stored k (List.mem_of_mem_filter hk)

include hne in
theorem decodeRuns_map {t : Bytes} {gs gs' : List (List Bytes)} (h : PostingsOk K t gs')
    (hsub : ∀ g ∈ gs, g ∈ gs') : decodeRuns t.length (gs.map (runOf t)) = .ok gs.flatten := by
  induction gs with
  | nil => rfl
  | cons g gs ih =>
    rw [List.map_cons, decodeRuns, h.decodeRun hne (hsub g List.mem_cons_self),
      ih fun g hg => hsub g (List.mem_cons_of_mem _ hg)]
    rfl

include hT hK hne hs hP

theorem decodeRuns_scan {t : Bytes} (ht : t ∈ T) : ∃ keys,
    decodeRuns t.length ((entryStore istore).scan (termBound t)) = .ok keys ∧
      Gathers K (fun k => (t, k) ∈ P) keys := by
  have hok := hs.postings t ht
  refine ⟨(lists t).flatten, ?_, hok.ascending, hP t ht, fun k hk => ?_⟩
  · rw [hs.scan_term hT hK ht]
    exact decodeRuns_map hne hok fun _ => id
  · obtain ⟨g, hg, hk⟩ := List.mem_flatten.mp hk
    exact (hok.groups g hg).mem k hk

theorem postingList_spec {t : Bytes} (ht : t ∈ T) (g : GinGather) : ∃ g' keys,
    postingList istore t g = .ok (g', keys) ∧ Gathers K (fun k => (t, k) ∈ P) keys := by
  obtain ⟨keys, hkeys, hgathers⟩ := decodeRuns_scan hT hK hne hs hP ht
  exact ⟨_, keys, by rw [postingList, hkeys]; rfl, hgathers⟩

/-- A leaf group keeps the candidates that the term holds. -/
theorem probeGroup_spec {t : Bytes} (ht : t ∈ T) {c : Bytes} {more : List Bytes}
    (hgroup : (c :: more).Pairwise (· < ·)) (hmem : ∀ d ∈ c :: more, d ∈ K) (g : GinGather) : ∃ g',
    probeGroup istore t c more g = .ok (g', (c :: more).filter fun d => decide ((t, d) ∈ P)) := by
  obtain ⟨stop, hlookups, -, -⟩ := probeLookups_spec hT hK hne hs ht (hP t ht) hgroup hmem none
  have hscan := probeGroupScan_spec hT hK hne hs ht (hP t ht) hgroup hmem
  unfold probeGroup
  dsimp only
  by_cases hsmall : (c :: more).length ≤ GIN_GROUP_LOOKUPS
  · rw [if_pos hsmall, probeGroupLookups, hlookups]
    exact ⟨_, rfl⟩
  · rw [if_neg hsmall, hscan]
    exact ⟨_, rfl⟩

/-- A term keeps the candidates that it holds, in whatever groups. -/
theorem probeTerm_spec {t : Bytes} (ht : t ∈ T) {cs : List Bytes} (hcs : cs.Pairwise (· < ·))
    (hmem : ∀ d ∈ cs, d ∈ K) (g : GinGather) : ∃ g',
    probeTerm istore t cs g = .ok (g', cs.filter fun d => decide ((t, d) ∈ P)) := by
  induction hn : cs.length using Nat.strong_induction_on generalizing cs g with
  | h n ih =>
    cases cs with
    | nil => exact ⟨g, by rw [probeTerm]; rfl⟩
    | cons c cs =>
      have happend := leafGroup_append istore t (t ++ c) cs
      have hsplit : (c :: (leafGroup istore t (t ++ c) cs).1) ++ (leafGroup istore t (t ++ c) cs).2
          = c :: cs := congrArg (c :: ·) happend
      rw [← hsplit] at hcs hmem
      obtain ⟨hgroup, hrest, -⟩ := List.pairwise_append.mp hcs
      obtain ⟨g₁, hprobe⟩ := probeGroup_spec hT hK hne hs hP ht hgroup
        (fun d hd => hmem d (List.mem_append_left _ hd)) g
      have hshort : (leafGroup istore t (t ++ c) cs).2.length < n := by
        have := congrArg List.length happend
        rw [List.length_append] at this
        rw [List.length_cons] at hn
        omega
      obtain ⟨g₂, htail⟩ := ih _ hshort hrest (fun d hd => hmem d (List.mem_append_right _ hd)) g₁ rfl
      refine ⟨g₂, ?_⟩
      rw [probeTerm, hprobe]
      show (probeTerm istore t _ g₁ >>= fun p => _) = _
      rw [htail, ← hsplit, List.filter_append]
      rfl

theorem probeTerms_spec {terms : List Bytes} (hterms : ∀ t ∈ terms, t ∈ T) {p : Bytes → Prop}
    {candidates : List Bytes} (h : Gathers K p candidates) (g : GinGather) : ∃ g' keys,
    probeTerms istore terms candidates g = .ok (g', keys) ∧
      Gathers K (fun k => p k ∧ ∀ t ∈ terms, (t, k) ∈ P) keys := by
  induction terms generalizing p candidates g with
  | nil => exact ⟨g, candidates, by rw [probeTerms], h.congr fun k => by simp⟩
  | cons t terms ih =>
    cases candidates with
    | nil =>
      refine ⟨g, [], by rw [probeTerms], List.Pairwise.nil, fun k => ?_, fun k hk => by cases hk⟩
      exact iff_of_false (List.not_mem_nil) fun hk => List.not_mem_nil ((h.mem k).mpr hk.1)
    | cons c cs =>
      obtain ⟨g₁, hprobe⟩ := probeTerm_spec hT hK hne hs hP (hterms t List.mem_cons_self)
        h.ascending h.stored g
      obtain ⟨g₂, keys, hrest, hkeys⟩ := ih (fun t ht => hterms t (List.mem_cons_of_mem _ ht))
        (h.filter fun d => decide ((t, d) ∈ P)) g₁
      refine ⟨g₂, keys, ?_, hkeys.congr fun k => ?_⟩
      · rw [probeTerms, hprobe]
        · exact hrest
        · exact List.cons_ne_nil c cs
      · rw [decide_eq_true_eq, List.forall_mem_cons]
        exact and_assoc

theorem drive_spec {t : Bytes} (ht : t ∈ T) (g : GinGather) : ∃ g' keys,
    drive istore (rankTerm istore t).1 g = .ok (g', keys) ∧ Gathers K (fun k => (t, k) ∈ P) keys := by
  unfold rankTerm
  dsimp only
  by_cases hpeek : istore.nodesIn (termBound t) ≤ height istore
  · rw [if_pos hpeek]
    obtain ⟨keys, hkeys, hgathers⟩ := decodeRuns_scan hT hK hne hs hP ht
    refine ⟨⟨g.pages, g.entries + keys.length⟩, keys, ?_, hgathers⟩
    show (decodeRuns t.length _ >>= fun keys => _) = _
    rw [hkeys]
    rfl
  · rw [if_neg hpeek]
    exact postingList_spec hT hK hne hs hP ht g

/-- The keys of all of the terms. -/
theorem intersect_spec {terms : List Bytes} (hterms : ∀ t ∈ terms, t ∈ T) (hsome : terms ≠ [])
    (g : GinGather) : ∃ g' keys,
    intersect istore terms g = .ok (g', keys) ∧
      Gathers K (fun k => ∀ t ∈ terms, (t, k) ∈ P) keys := by
  cases terms with
  | nil => exact absurd rfl hsome
  | cons t₁ terms =>
    cases terms with
    | nil =>
      obtain ⟨g', keys, hlist, hkeys⟩ :=
        postingList_spec hT hK hne hs hP (hterms t₁ List.mem_cons_self) g
      exact ⟨g', keys, hlist, hkeys.congr fun k => by simp⟩
    | cons t₂ rest =>
      unfold intersect
      dsimp only
      have hperm := List.mergeSort_perm
        (((t₁ :: t₂ :: rest).map (rankTerm istore)).map Prod.fst) TermRank.le
      cases hsorted : (((t₁ :: t₂ :: rest).map (rankTerm istore)).map Prod.fst).mergeSort TermRank.le with
      | nil =>
        rw [hsorted] at hperm
        exact absurd hperm.length_eq (by simp)
      | cons driver ordered =>
        rw [hsorted] at hperm
        have hterm : ∀ t, (rankTerm istore t).1.term = t := by
          intro t
          unfold rankTerm
          dsimp only
          split <;> rfl
        have hnames : ((driver :: ordered).map TermRank.term).Perm (t₁ :: t₂ :: rest) := by
          have hmap : (((t₁ :: t₂ :: rest).map (rankTerm istore)).map Prod.fst).map TermRank.term
              = t₁ :: t₂ :: rest := by
            rw [List.map_map, List.map_map]
            exact (List.map_congr_left fun t _ => hterm t).trans (List.map_id _)
          exact hmap ▸ hperm.map TermRank.term
        have hdriver : ∃ t ∈ t₁ :: t₂ :: rest, (rankTerm istore t).1 = driver := by
          have hmem := hperm.subset (List.mem_cons_self (a := driver) (l := ordered))
          rw [List.map_map] at hmem
          exact List.mem_map.mp hmem
        obtain ⟨t, ht, rfl⟩ := hdriver
        obtain ⟨g₁, candidates, hdrive, hcandidates⟩ :=
          drive_spec hT hK hne hs hP (hterms t ht)
            ⟨g.pages + (((t₁ :: t₂ :: rest).map (rankTerm istore)).map Prod.snd).sum, g.entries⟩
        have hordered : ∀ t ∈ ordered.map TermRank.term, t ∈ T := fun t ht =>
          hterms t (hnames.subset (List.mem_cons_of_mem _ ht))
        obtain ⟨g₂, keys, hprobe, hkeys⟩ :=
          probeTerms_spec hT hK hne hs hP hordered hcandidates g₁
        refine ⟨g₂, keys, ?_, hkeys.congr fun k => ?_⟩
        · show (drive istore _ _ >>= fun p => _) = _
          rw [hdrive]
          exact hprobe
        · rw [List.map_cons, hterm] at hnames
          rw [← List.forall_mem_cons (p := fun t => (t, k) ∈ P)]
          exact ⟨fun h t ht => h t (hnames.symm.subset ht), fun h t ht => h t (hnames.subset ht)⟩

theorem unionLeaves_spec {leaves : List Bytes} (hleaves : ∀ t ∈ leaves, t ∈ T) (union : Finset Bytes)
    (hunion : ∀ k ∈ union, k ∈ K) (g : GinGather) : ∃ g' union',
    unionLeaves istore leaves union g = .ok (g', union') ∧ (∀ k ∈ union', k ∈ K) ∧
      ∀ k, k ∈ union' ↔ k ∈ union ∨ ∃ t ∈ leaves, (t, k) ∈ P := by
  induction leaves generalizing union g with
  | nil => exact ⟨g, union, rfl, hunion, fun k => by simp⟩
  | cons t leaves ih =>
    obtain ⟨g₁, keys, hlist, hkeys⟩ :=
      postingList_spec hT hK hne hs hP (hleaves t List.mem_cons_self) g
    obtain ⟨g₂, union', hrest, hstored, hmem⟩ := ih (fun t ht => hleaves t (List.mem_cons_of_mem _ ht))
      (union ∪ keys.toFinset) (fun k hk => (Finset.mem_union.mp hk).elim (hunion k) fun hk =>
        hkeys.stored k (List.mem_toFinset.mp hk)) g₁
    refine ⟨g₂, union', ?_, hstored, fun k => ?_⟩
    · rw [unionLeaves, hlist]
      exact hrest
    · rw [hmem, Finset.mem_union, List.mem_toFinset, hkeys.mem, List.exists_mem_cons_iff]
      exact or_assoc

omit hT hK hne hs hP

/-- A tree's evaluation gathers the keys that it is true of. -/
def Evaluates (istore : TreeMap Unit) (K : Set Bytes) (P : Finset (Bytes × Bytes)) (tree : GinTree) : Prop :=
  ∀ g, ∃ g' keys, eval istore tree g = .ok (g', keys) ∧ Gathers K (fun k => tree.Holds P k) keys

theorem evalUnion_spec {rest : List GinTree} (hrest : ∀ child ∈ rest, Evaluates istore K P child)
    (union : Finset Bytes) (hunion : ∀ k ∈ union, k ∈ K) (g : GinGather) : ∃ g' union',
    evalUnion istore rest union g = .ok (g', union') ∧ (∀ k ∈ union', k ∈ K) ∧
      ∀ k, k ∈ union' ↔ k ∈ union ∨ ∃ child ∈ rest, child.Holds P k := by
  induction rest generalizing union g with
  | nil => exact ⟨g, union, by rw [evalUnion], hunion, fun k => by simp⟩
  | cons child rest ih =>
    obtain ⟨g₁, keys, heval, hkeys⟩ := hrest child List.mem_cons_self g
    obtain ⟨g₂, union', hunions, hstored, hmem⟩ := ih (fun c hc => hrest c (List.mem_cons_of_mem _ hc))
      (union ∪ keys.toFinset) (fun k hk => (Finset.mem_union.mp hk).elim (hunion k) fun hk =>
        hkeys.stored k (List.mem_toFinset.mp hk)) g₁
    refine ⟨g₂, union', ?_, hstored, fun k => ?_⟩
    · rw [evalUnion, heval]
      exact hunions
    · rw [hmem, Finset.mem_union, List.mem_toFinset, hkeys.mem, List.exists_mem_cons_iff]
      exact or_assoc

theorem evalRetain_spec {rest : List GinTree} (hrest : ∀ child ∈ rest, Evaluates istore K P child)
    {p : Bytes → Prop} {candidates : List Bytes} (h : Gathers K p candidates) (g : GinGather) :
    ∃ g' keys, evalRetain istore rest candidates g = .ok (g', keys) ∧
      Gathers K (fun k => p k ∧ ∀ child ∈ rest, child.Holds P k) keys := by
  induction rest generalizing p candidates g with
  | nil => exact ⟨g, candidates, by rw [evalRetain], h.congr fun k => by simp⟩
  | cons child rest ih =>
    cases candidates with
    | nil =>
      refine ⟨g, [], by rw [evalRetain], List.Pairwise.nil, fun k => ?_, fun k hk => by cases hk⟩
      exact iff_of_false List.not_mem_nil fun hk => List.not_mem_nil ((h.mem k).mpr hk.1)
    | cons c cs =>
      obtain ⟨g₁, found, heval, hfound⟩ := hrest child List.mem_cons_self g
      obtain ⟨g₂, keys, hretain, hkeys⟩ := ih (fun c hc => hrest c (List.mem_cons_of_mem _ hc))
        (h.filter fun key => decide (key ∈ found)) g₁
      refine ⟨g₂, keys, ?_, hkeys.congr fun k => ?_⟩
      · rw [evalRetain, heval]
        · exact hretain
        · exact List.cons_ne_nil c cs
      · rw [decide_eq_true_eq, hfound.mem, List.forall_mem_cons]
        exact and_assoc

include hT hK hne hs hP

/-- Every normalized tree gathers the keys that it is true of. -/
theorem eval_spec {tree : GinTree} (h : tree.Normalized T) : Evaluates istore K P tree := by
  induction h with
  | term ht =>
    intro g
    obtain ⟨g', keys, hlist, hkeys⟩ := postingList_spec hT hK hne hs hP ht g
    exact ⟨g', keys, by rw [eval, hlist], hkeys.congr fun k => by rw [GinTree.Holds]⟩
  | @and leaves rest hleaves hasc hmany hkind hrest ih =>
    intro g
    cases leaves with
    | nil =>
      cases rest with
      | nil => cases hmany
      | cons first rest =>
        obtain ⟨g₁, candidates, heval, hcandidates⟩ := ih first List.mem_cons_self g
        obtain ⟨g₂, keys, hretain, hkeys⟩ :=
          evalRetain_spec (fun c hc => ih c (List.mem_cons_of_mem _ hc)) hcandidates g₁
        refine ⟨g₂, keys, ?_, hkeys.congr fun k => ?_⟩
        · rw [eval, heval]
          exact hretain
        · rw [GinTree.Holds, List.forall_mem_cons]
          exact ⟨fun hk => ⟨(fun t ht => by cases ht), hk⟩, fun hk => hk.2⟩
    | cons leaf leaves =>
      obtain ⟨g₁, candidates, hintersect, hcandidates⟩ :=
        intersect_spec hT hK hne hs hP hleaves (List.cons_ne_nil leaf leaves) g
      obtain ⟨g₂, keys, hretain, hkeys⟩ := evalRetain_spec ih hcandidates g₁
      refine ⟨g₂, keys, ?_, hkeys.congr fun k => by rw [GinTree.Holds]⟩
      rw [eval, hintersect]
      exact hretain
  | @or leaves rest hleaves hasc hmany hkind hrest ih =>
    intro g
    obtain ⟨g₁, union₁, hleafUnion, hstored₁, hmem₁⟩ :=
      unionLeaves_spec hT hK hne hs hP hleaves ∅ (fun k hk => by simp at hk) g
    obtain ⟨g₂, union₂, hunion, hstored₂, hmem₂⟩ := evalUnion_spec ih union₁ hstored₁ g₁
    refine ⟨g₂, union₂.sort, ?_, (Finset.sortedLT_sort union₂).pairwise, fun k => ?_, fun k hk => ?_⟩
    · rw [eval, hleafUnion]
      show (evalUnion istore rest union₁ g₁ >>= fun p => _) = _
      rw [hunion]
      rfl
    · rw [Finset.mem_sort, hmem₂, hmem₁, GinTree.Holds]
      simp only [Finset.notMem_empty, false_or, exists_prop]
    · exact hstored₂ k ((Finset.mem_sort _).mp hk)

omit hT hK hne hs hP

/-- Over prefix-free terms and storage keys, a gather of a normalized tree returns the storage keys that
    the tree is true of, ascending and each once. -/
theorem gather_evaluates_tree (hT : PrefixFree T) (hK : PrefixFree K) (hne : [] ∉ K)
    (h : Refines T K P (entryStore istore)) {tree : GinTree} (htree : tree.Normalized T) (g : GinGather) : ∃ g' keys,
    eval istore tree g = .ok (g', keys) ∧ keys.Pairwise (· < ·) ∧ ∀ k, k ∈ keys ↔ tree.Holds P k := by
  obtain ⟨lists, hs, hP⟩ := h
  obtain ⟨g', keys, heval, hkeys⟩ := eval_spec hT hK hne hs hP htree g
  exact ⟨g', keys, heval, hkeys.ascending, hkeys.mem⟩

/-- The keys of two terms are those of the second one, as the first holds them all. -/
theorem gather_evaluates_tree_twoTerms : ∃ g' keys,
    eval twoTerms (.and [[1], [2]] []) ⟨0, 0⟩ = .ok (g', keys) ∧
      keys.Pairwise (· < ·) ∧ ∀ k, k ∈ keys ↔ (GinTree.and [[1], [2]] []).Holds
        (postingsOf [([1], [[10], [20]]), ([2], [[20]])]) k :=
  gather_evaluates_tree singletons_prefixFree singletons_prefixFree (by simp)
    twoTerms_refines (.and (by simp) (by decide) (by decide) (fun _ h => by cases h)
      (fun _ h => by cases h)) ⟨0, 0⟩

/-- Of a store that is built from posting lists and edited by any calls, the tree of a query gathers the
    storage keys that the query is true of in the set of postings, ascending and each once. -/
theorem gather_of_edits (hT : PrefixFree T) (hK : PrefixFree K) (hne : [] ∉ K)
    (hlen : ∀ k ∈ K, k.length ≤ STORAGE_KEY_MAX) (ls : List (Bytes × List Bytes))
    (hls : ∀ l ∈ ls, l.1 ∈ T ∧ l.2.Pairwise (· < ·) ∧ ∀ k ∈ l.2, k ∈ K) (hnodup : (ls.map Prod.fst).Nodup)
    (es : List Edit) (hes : ∀ e ∈ es, e.posting.1 ∈ T ∧ e.posting.2 ∈ K) {query : Node}
    (hquery : query.Extracted T) :
    ∃ s s' outs, indexBuildInsert [] ls = .ok s ∧ runEdits s es = .ok (outs, s') ∧
      ∀ istore, entryStore istore = s' → ∀ g, ∃ g' keys, eval istore query.intoTree g = .ok (g', keys) ∧
        keys.Pairwise (· < ·) ∧ ∀ k, k ∈ keys ↔ query.Holds (applyEdits (postingsOf ls) es) k := by
  have hempty : Refines T K ∅ [] :=
    ⟨fun _ => [], ⟨List.Pairwise.nil, by simp [EntryStore.runs], fun _ _ => ⟨by simp, by simp⟩⟩, by simp⟩
  obtain ⟨s, hbuild, hs⟩ := hempty.build hT hK hlen hls hnodup (by simp)
  rw [Finset.empty_union] at hs
  obtain ⟨s', hrun, hs'⟩ := hs.run hT hK hne hlen hes
  refine ⟨s, s', _, hbuild, hrun, fun istore hstore g => ?_⟩
  obtain ⟨lists, hstore, hlists⟩ := hstore ▸ hs'
  obtain ⟨hnormal, hholds⟩ := Node.intoTree_spec hquery
  obtain ⟨g', keys, heval, hkeys⟩ := eval_spec hT hK hne hstore hlists hnormal g
  exact ⟨g', keys, heval, hkeys.ascending, fun k => (hkeys.mem k).trans (hholds _ k)⟩

/-- `{1} ∧ ({2} ∨ {1})` after an insertion and a removal. -/
theorem gather_of_edits_twoTerms : ∃ s s' outs,
    indexBuildInsert [] [([1], [[10], [20]])] = .ok s ∧
      runEdits s [.insert [2] [20], .remove [1] [10]] = .ok (outs, s') ∧
      ∀ istore, entryStore istore = s' → ∀ g, ∃ g' keys,
        eval istore (Node.and [.entry [1], .or [.entry [2], .entry [1]]]).intoTree g = .ok (g', keys) ∧
          keys = [[20]] := by
  have hquery : (Node.and [.entry [1], .or [.entry [2], .entry [1]]]).Extracted {t | t.length = 1} := by
    refine .and (by simp) fun child hchild => ?_
    rcases List.mem_pair.mp hchild with rfl | rfl
    · exact .entry rfl
    · refine .or (by simp) fun child hchild => ?_
      rcases List.mem_pair.mp hchild with rfl | rfl
      · exact .entry rfl
      · exact .entry rfl
  obtain ⟨s, s', outs, hbuild, hrun, hgather⟩ := gather_of_edits singletons_prefixFree singletons_prefixFree (by simp)
    singletons_short [([1], [[10], [20]])] (by decide) (by decide) [.insert [2] [20], .remove [1] [10]]
    (by decide) hquery
  refine ⟨s, s', outs, hbuild, hrun, fun istore hstore g => ?_⟩
  obtain ⟨g', keys, heval, hasc, hmem⟩ := hgather istore hstore g
  refine ⟨g', keys, heval, hasc.eq_of_mem_iff (by decide) fun k => (hmem k).trans ?_⟩
  rw [show applyEdits _ _ = {([1], [20]), ([2], [20])} by decide +kernel]
  simp [Node.Holds]

end Jed.Gin
