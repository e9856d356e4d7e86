import Jed.PMap.SplitPoint

/-!
# Every node fits its page

The size half of the tree invariant. The record cap makes a two-record leaf and a one-separator
interior fit, and from that every split the insert path needs exists, and every node the delete
path builds fits (an interior merge that would not is abandoned).
-/

namespace Jed.PMap

open Splice

variable {ρ : Type}

/-- `RECORD_MAX(K) = (C − max(12, 12+16·K))/2`, the record cap as the format states it. The code's
    `recordMax` saturates where this is negative. -/
def RECORD_MAX (c k : Nat) : Int := ((c : Int) - max 12 (12 + 16 * k)) / 2

/-- A record the map accepts: its weight covers its key and stays within the record cap. -/
structure RecordOk (cap : Cap) (shape : LeafShape) (key : Bytes) (weight : Nat) : Prop where
  key_le : key.length ≤ weight
  weight_le : (weight : Int) ≤ RECORD_MAX cap.c shape.k

instance (cap : Cap) (shape : LeafShape) (key : Bytes) (weight : Nat) :
    Decidable (RecordOk cap shape key weight) :=
  decidable_of_iff (key.length ≤ weight ∧ (weight : Int) ≤ RECORD_MAX cap.c shape.k)
    ⟨fun h => ⟨h.1, h.2⟩, fun h => ⟨h.1, h.2⟩⟩

/-- The capacities that admit a record and an interior of one separator, two pointers and the
    longest key: any plaintext capacity, and a tagged one from 75 bytes on. -/
structure CapOk (cap : Cap) (shape : LeafShape) : Prop where
  record : 12 + 16 * shape.k ≤ cap.c
  pointers : 2 * cap.ptr + 4 + recordMax cap.c shape.k ≤ cap.c

/-- A separator is a copy of some record's key. -/
def SepOk (cap : Cap) (shape : LeafShape) (sep : Bytes) : Prop :=
  2 * sep.length + 12 + 16 * shape.k ≤ cap.c

/-- Every node's payload fits the page, and every interior has one child more than separators. -/
def Fits (cap : Cap) (shape : LeafShape) : (n : Nat) → Tree ρ n → Prop
  | 0, (es : Leaf ρ) => leafPayload (es.map (·.2.weight)) shape ≤ cap.c ∧
      ∀ e ∈ es, RecordOk cap shape e.1 e.2.weight
  | n + 1, (t : Inner (Tree ρ n)) => interiorPayload cap t.keys ≤ cap.c ∧
      t.children.length = t.keys.length + 1 ∧ (∀ s ∈ t.keys, SepOk cap shape s) ∧
      ∀ c ∈ t.children, Fits cap shape n c

/-- The nodes of a `Grown` satisfy `P`, and its separator is short. -/
def Grown.All {τ : Type} (cap : Cap) (shape : LeafShape) (P : τ → Prop) : Grown τ → Prop
  | .whole t => P t
  | .split left sep right => P left ∧ SepOk cap shape sep ∧ P right

variable {cap : Cap} {shape : LeafShape} {key : Bytes} {w : Nat}

theorem RecordOk.bound (h : RecordOk cap shape key w) : 2 * w + 12 + 16 * shape.k ≤ cap.c := by
  have := h.weight_le
  unfold RECORD_MAX at this
  omega

theorem RecordOk.sepOk (h : RecordOk cap shape key w) : SepOk cap shape key := by
  have h1 := h.bound
  have h2 := h.key_le
  unfold SepOk
  omega

theorem recordMax_eq {c k : Nat} (h : 12 + 16 * k ≤ c) : (recordMax c k : Int) = RECORD_MAX c k := by
  unfold recordMax RECORD_MAX RECORD_MAX_RESERVE
  omega

/-- An interior of one separator fits, even when the separator is the longest key of a record. -/
def SepFits (cap : Cap) (shape : LeafShape) : Prop :=
  0 ≤ RECORD_MAX cap.c shape.k → 2 * (cap.ptr : Int) + 4 + RECORD_MAX cap.c shape.k ≤ cap.c

theorem Cap.WellFormed.sepFits (h : cap.WellFormed) (shape : LeafShape) :
    SepFits cap shape := by
  intro hr
  unfold RECORD_MAX Cap.ptr at *
  rcases h with ht | ⟨ht, hc⟩
  · omega
  · rw [ht, TAG_LEN]
    omega

theorem RecordOk.capOk (h : RecordOk cap shape key w) (hsep : SepFits cap shape) : CapOk cap shape := by
  have hb := h.bound
  have hw := h.weight_le
  have hs := hsep (by omega)
  have hr : 12 + 16 * shape.k ≤ cap.c := by omega
  refine ⟨hr, ?_⟩
  have := recordMax_eq hr
  omega

variable {n a b : Nat}

/-- Splitting a leaf of `n` records after `a` of them, one counted on both sides, costs at most the
    overhead of one more record and its directories. -/
theorem leafOverhead_split (shape : LeafShape) (h : a + b = n + 1) :
    leafOverhead a shape + leafOverhead b shape ≤
      leafOverhead n shape + (8 + 6 * shape.fixed + 9 * shape.var) := by
  have hceil : (a + 7) / 8 + (b + 7) / 8 ≤ (n + 7) / 8 + 1 := by omega
  have hfixed := Nat.mul_le_mul_left shape.fixed hceil
  have hvar : shape.var * a + shape.var * b = shape.var * n + shape.var := by
    rw [← Nat.mul_add, h, Nat.mul_succ]
  have hv : ∀ x, shape.var * (1 + 4 * x) = shape.var + 4 * (shape.var * x) := fun x => by ring
  have hf : ∀ x, shape.fixed * (1 + (x + 7) / 8) = shape.fixed + shape.fixed * ((x + 7) / 8) :=
    fun x => by ring
  simp only [leafOverhead, LeafShape.k, hv, hf]
  simp only [Nat.mul_add, Nat.mul_one] at hfixed
  omega

/-- Joining two leaves saves at least one leaf's fixed directories. -/
theorem leafOverhead_join (shape : LeafShape) (a b : Nat) :
    leafOverhead (a + b) shape + (4 + 4 * shape.k + shape.fixed + shape.var) ≤
      leafOverhead a shape + leafOverhead b shape := by
  have hceil : (a + b + 7) / 8 ≤ (a + 7) / 8 + (b + 7) / 8 := by omega
  have hfixed := Nat.mul_le_mul_left shape.fixed hceil
  have hvar : shape.var * (a + b) = shape.var * a + shape.var * b := Nat.mul_add ..
  have hv : ∀ x, shape.var * (1 + 4 * x) = shape.var + 4 * (shape.var * x) := fun x => by ring
  have hf : ∀ x, shape.fixed * (1 + (x + 7) / 8) = shape.fixed + shape.fixed * ((x + 7) / 8) :=
    fun x => by ring
  simp only [leafOverhead, hv, hf]
  simp only [Nat.mul_add] at hfixed
  omega

/-- One record more costs one directory entry per directory, and a bitmap byte per fixed column. -/
theorem leafOverhead_succ (shape : LeafShape) (n : Nat) :
    leafOverhead (n + 1) shape ≤ leafOverhead n shape + (4 + shape.fixed + 4 * shape.var) := by
  have hceil : (n + 1 + 7) / 8 ≤ (n + 7) / 8 + 1 := by omega
  have hfixed := Nat.mul_le_mul_left shape.fixed hceil
  have hvar : shape.var * (n + 1) = shape.var * n + shape.var := Nat.mul_succ ..
  have hv : ∀ x, shape.var * (1 + 4 * x) = shape.var + 4 * (shape.var * x) := fun x => by ring
  have hf : ∀ x, shape.fixed * (1 + (x + 7) / 8) = shape.fixed + shape.fixed * ((x + 7) / 8) :=
    fun x => by ring
  simp only [leafOverhead, hv, hf]
  simp only [Nat.mul_add, Nat.mul_one] at hfixed
  omega

theorem leafOverhead_mono (shape : LeafShape) (h : a ≤ b) :
    leafOverhead a shape ≤ leafOverhead b shape := by
  unfold leafOverhead
  have h1 : (a + 7) / 8 ≤ (b + 7) / 8 := by omega
  gcongr

/-- The room a leaf overflow may take before no split fits: `payload + w` of the record the split
    lands on, within two pages. -/
def LeafRoom (cap : Cap) (shape : LeafShape) (weights : List Nat) : Prop :=
  ∀ w ∈ weights, leafPayload weights shape + w + (8 + 6 * shape.fixed + 9 * shape.var) ≤ 2 * cap.c

/-- A leaf that overflows has a split point, both of whose halves fit. -/
theorem leafSplitPoint_fits {weights : List Nat}
    (edited : Option Nat) (hw : ∀ w ∈ weights, 2 * w + 12 + 16 * shape.k ≤ cap.c)
    (hroom : LeafRoom cap shape weights) (hover : cap.c < leafPayload weights shape)
    (hn : 2 ≤ weights.length) :
    ∃ m, leafSplitPoint weights cap shape edited = some m ∧
      leafPayload (weights.take m) shape ≤ cap.c ∧ leafPayload (weights.drop m) shape ≤ cap.c := by
  have hone : ∀ w ∈ weights, w + leafOverhead 1 shape ≤ cap.c := by
    intro w h
    have := hw w h
    simp only [leafOverhead, LeafShape.k] at this ⊢
    omega
  have hdropSucc : ∀ m (h : m < weights.length),
      (weights.drop m).sum = weights[m] + (weights.drop (m + 1)).sum := by
    intro m h
    rw [List.drop_eq_getElem_cons h, List.sum_cons]
  have htakeSucc : ∀ m (h : m < weights.length),
      (weights.take (m + 1)).sum = (weights.take m).sum + weights[m] := by
    intro m h
    rw [List.take_succ_eq_append_getElem h, List.sum_append, List.sum_singleton]
  have htotal : ∀ m, (weights.take m).sum + (weights.drop m).sum = weights.sum := fun m => by
    rw [← List.sum_append, List.take_append_drop]
  have hrange : 1 ≤ weights.length - 1 := by omega
  have hsome := splitPoint_isSome (leafPayload weights shape)
    (edited == some (weights.length - 1))
    (fun m => (weights.take m).sum + leafOverhead m shape)
    (fun m => (weights.drop m).sum + leafOverhead (weights.length - m) shape) hrange
    (by
      have h0 := htakeSucc 0 (by omega)
      have := hone weights[0] (List.getElem_mem _)
      simp only [List.take_zero, List.sum_nil, Nat.zero_add] at h0
      simpa [h0] using this)
    (by
      have hd := hdropSucc (weights.length - 1) (by omega)
      rw [show weights.length - 1 + 1 = weights.length by omega] at hd
      rw [List.drop_length, List.sum_nil] at hd
      have := hone weights[weights.length - 1] (List.getElem_mem _)
      simp only [hd, show weights.length - (weights.length - 1) = 1 by omega]
      omega)
    (by
      intro m m' hm
      have hsub : (weights.drop m').sum ≤ (weights.drop m).sum :=
        (List.drop_sublist_drop_left weights hm).sum_le_sum (by simp)
      have := leafOverhead_mono shape (Nat.sub_le_sub_left hm weights.length)
      omega)
    (by
      intro m h1 h2 hleft
      have hmlt : m < weights.length := by omega
      have hsplit := leafOverhead_split shape (a := m + 1) (b := weights.length - m)
        (n := weights.length) (by omega)
      have htm := htakeSucc m hmlt
      have htot := htotal m
      have hr := hroom weights[m] (List.getElem_mem _)
      unfold leafPayload at hr
      omega)
  obtain ⟨m, hm⟩ := Option.isSome_iff_exists.mp hsome
  have hfits := splitPoint_fits hrange hm
  obtain ⟨hm1, hmn⟩ := splitPoint_mem hm
  refine ⟨m, ?_, ?_, ?_⟩
  · unfold leafSplitPoint
    have h1 : ¬leafPayload weights shape ≤ cap.c := by omega
    have h2 : ¬weights.length < 2 := by omega
    simp only [h1, h2, decide_false, Bool.or_self, Bool.false_eq_true, if_false]
    exact hm
  · simpa [leafPayload, List.length_take, Nat.min_eq_left (show m ≤ weights.length by omega)]
      using hfits.1
  · simpa [leafPayload] using hfits.2

/-- Building a leaf from admissible records leaves leaves that fit. -/
theorem buildLeaf_fits {es : Leaf ρ} (hcap : CapOk cap shape)
    (hes : ∀ e ∈ es, RecordOk cap shape e.1 e.2.weight)
    (hroom : LeafRoom cap shape (es.map (·.2.weight))) (edited : Option Nat) :
    (buildLeaf es cap shape edited).All cap shape (Fits cap shape 0) := by
  have hw : ∀ w ∈ es.map (·.2.weight), 2 * w + 12 + 16 * shape.k ≤ cap.c := by
    intro w h
    obtain ⟨e, he, rfl⟩ := List.mem_map.mp h
    exact (hes e he).bound
  have hwhole : leafPayload (es.map (·.2.weight)) shape ≤ cap.c →
      (Grown.whole es).All cap shape (Fits cap shape 0) := by
    exact fun hfit => ⟨hfit, hes⟩
  rcases Nat.lt_or_ge cap.c (leafPayload (es.map (·.2.weight)) shape) with hover | hfit
  · rcases Nat.lt_or_ge es.length 2 with hn | hn
    · -- a leaf of at most one record cannot overflow
      exfalso
      rcases es with _ | ⟨e, _ | ⟨e', es⟩⟩
      · have := hcap.record
        simp only [leafPayload, List.map_nil, List.sum_nil, List.length_nil, leafOverhead,
          LeafShape.k] at hover this
        omega
      · have := hw e.2.weight (by simp)
        simp only [leafPayload, List.map_cons, List.map_nil, List.sum_cons, List.sum_nil,
          List.length_cons, List.length_nil, leafOverhead, LeafShape.k] at hover this
        omega
      · simp at hn
    · obtain ⟨m, hm, hl, hr⟩ := leafSplitPoint_fits edited hw hroom hover
        (by simpa using hn)
      unfold buildLeaf
      simp only [hm]
      obtain ⟨hm1, hmn⟩ := leafSplitPoint_mem hm
      split
      · rename_i hdrop
        have := congrArg List.length hdrop
        simp only [List.length_drop, List.length_nil, List.length_map] at this hmn
        omega
      · rename_i e right hdrop
        have hright : ∀ x ∈ e :: right, x ∈ es := fun x hx => List.mem_of_mem_drop (hdrop ▸ hx)
        refine ⟨⟨?_, fun x hx => hes x (List.mem_of_mem_take hx)⟩,
          (hes e (hright e List.mem_cons_self)).sepOk, ?_, fun x hx => hes x (hright x hx)⟩
        · rw [List.map_take]
          exact hl
        · rw [← hdrop, List.map_drop]
          exact hr
  · unfold buildLeaf
    rw [show leafSplitPoint (es.map (·.2.weight)) cap shape edited = none by
      simp [leafSplitPoint, hfit]]
    exact hwhole hfit

theorem sum_length_le_of_sublist {ks ls : List Bytes} (h : ks.Sublist ls) :
    (ks.map List.length).sum ≤ (ls.map List.length).sum :=
  (h.map _).sum_le_sum (by simp)

theorem interiorPayload_mono {ks ls : List Bytes} (h : ks.Sublist ls) :
    interiorPayload cap ks ≤ interiorPayload cap ls := by
  have h1 := sum_length_le_of_sublist h
  have h2 := h.length_le
  unfold interiorPayload
  gcongr

theorem CapOk.sep_fits (hcap : CapOk cap shape) {s : Bytes}
    (hs : SepOk cap shape s) : 2 * cap.ptr + 4 + s.length ≤ cap.c := by
  have := hcap.pointers
  unfold SepOk at hs
  unfold recordMax RECORD_MAX_RESERVE at this
  omega

theorem interiorPayload_single (hcap : CapOk cap shape)
    {s : Bytes} (hs : SepOk cap shape s) : interiorPayload cap [s] ≤ cap.c := by
  have := hcap.sep_fits hs
  simp only [interiorPayload, List.length_cons, List.length_nil, List.map_cons,
    List.map_nil, List.sum_cons, List.sum_nil] at *
  omega

theorem interiorPayload_nil (hcap : CapOk cap shape) :
    interiorPayload cap [] ≤ cap.c := by
  have := hcap.pointers
  simp only [interiorPayload, List.length_nil, List.map_nil, List.sum_nil, Cap.ptr] at *
  omega

variable {keys : List Bytes} {m : Nat}

/-- The two halves of an interior split, as `split_point` measures them. -/
theorem interior_halves (cap : Cap) (hm : m < keys.length) :
    interiorPayload cap (keys.take m) =
        (cap.ptr + 4) * m + cap.ptr + ((keys.map List.length).take m).sum ∧
      interiorPayload cap (keys.drop (m + 1)) =
        (cap.ptr + 4) * (keys.length - 1 - m) + cap.ptr +
          ((keys.map List.length).drop (m + 1)).sum := by
  have hlen : keys.length - (m + 1) = keys.length - 1 - m := by omega
  constructor
  · simp only [interiorPayload, List.length_take, Nat.min_eq_left hm.le, List.map_take]
    ring
  · simp only [interiorPayload, List.length_drop, List.map_drop, hlen]
    ring

/-- Whatever split the interior rule picks, both halves fit. -/
theorem interiorSplitPoint_fits (hcap : CapOk cap shape)
    (hs : ∀ s ∈ keys, SepOk cap shape s) {edited : Option Nat}
    (hn : 2 ≤ keys.length) (h : interiorSplitPoint keys cap edited = some m) :
    interiorPayload cap (keys.take m) ≤ cap.c ∧ interiorPayload cap (keys.drop (m + 1)) ≤ cap.c := by
  have hmn := (interiorSplitPoint_mem h).2
  unfold interiorSplitPoint at h
  dsimp only at h
  split at h
  · rename_i h2
    obtain rfl : 1 = m := by simpa using h
    simp only [beq_iff_eq] at h2
    match keys, h2 with
    | [a, b], _ =>
      exact ⟨interiorPayload_single hcap (hs a (by simp)), by simpa using interiorPayload_nil hcap⟩
  · rename_i h2
    simp only [beq_iff_eq] at h2
    have hfits := splitPoint_fits (by omega) h
    obtain ⟨hl, hr⟩ := interior_halves cap hmn
    exact ⟨hl ▸ hfits.1, hr ▸ hfits.2⟩

/-- The insert path always finds a split: the payload is over the page by one separator at most. -/
theorem interiorSplitPoint_isSome (hcap : CapOk cap shape)
    (hs : ∀ s ∈ keys, SepOk cap shape s) (edited : Option Nat) (hn : 2 ≤ keys.length)
    (hroom : interiorPayload cap keys + cap.ptr ≤ 2 * cap.c) :
    (interiorSplitPoint keys cap edited).isSome := by
  unfold interiorSplitPoint
  dsimp only
  split
  · rfl
  · rename_i h2
    simp only [beq_iff_eq] at h2
    have hhalves := fun m (hm : m < keys.length) => interior_halves cap hm
    have hfirst : interiorPayload cap (keys.take 1) ≤ cap.c := by
      match keys, hn with
      | a :: _, _ => simpa using interiorPayload_single hcap (hs a (by simp))
    have hlast : interiorPayload cap (keys.drop (keys.length - 1)) ≤ cap.c := by
      rw [List.drop_eq_getElem_cons (by omega), show keys.length - 1 + 1 = keys.length by omega,
        List.drop_length]
      exact interiorPayload_single hcap (hs _ (List.getElem_mem _))
    refine splitPoint_isSome _ _ _ _ (by omega) ?_ ?_ ?_ ?_
    · rw [← (hhalves 1 (by omega)).1]
      exact hfirst
    · rw [← (hhalves (keys.length - 2) (by omega)).2,
        show keys.length - 2 + 1 = keys.length - 1 by omega]
      exact hlast
    · intro m m' hm
      have hsub := (List.drop_sublist_drop_left (keys.map List.length)
        (Nat.add_le_add_right hm 1)).sum_le_sum (by simp)
      gcongr
    · intro m h1 h3 hleft
      have hml : m < keys.length := by omega
      have htm : ((keys.map List.length).take (m + 1)).sum +
          ((keys.map List.length).drop (m + 1)).sum = (keys.map List.length).sum := by
        rw [← List.sum_append, List.take_append_drop]
      obtain ⟨k, hk⟩ : ∃ k, keys.length = m + 1 + k := ⟨keys.length - (m + 1), by omega⟩
      simp only [interiorPayload, hk] at hroom
      rw [show keys.length - 1 - m = k by omega]
      have e1 : cap.ptr * (m + 1 + k + 1) = cap.ptr * (m + 1) + cap.ptr * k + cap.ptr := by ring
      have e2 : (cap.ptr + 4) * (m + 1) = cap.ptr * (m + 1) + 4 * (m + 1) := by ring
      have e3 : (cap.ptr + 4) * k = cap.ptr * k + 4 * k := by ring
      rw [e1] at hroom
      rw [e2] at hleft
      rw [e3]
      omega

/-- Whatever `build_interior` builds fits. -/
theorem buildInterior_fits (hcap : CapOk cap shape)
    {t : Inner (Tree ρ n)} (hlen : t.children.length = t.keys.length + 1)
    (hs : ∀ s ∈ t.keys, SepOk cap shape s) (hc : ∀ c ∈ t.children, Fits cap shape n c)
    {edited : Option Nat} {g : Grown (Inner (Tree ρ n))}
    (hg : buildInterior t cap edited = some g) : g.All cap shape (Fits cap shape (n + 1)) := by
  unfold buildInterior at hg
  split at hg
  · rename_i hfit
    obtain rfl := Option.some.inj hg
    refine ⟨?_, hlen, hs, hc⟩
    simp only [Bool.or_eq_true, decide_eq_true_eq] at hfit
    rcases hfit with hfit | hfit
    · exact hfit
    · rcases hkeys : t.keys with _ | ⟨a, _ | ⟨b, ks⟩⟩
      · exact interiorPayload_nil hcap
      · exact interiorPayload_single hcap (hs a (by simp [hkeys]))
      · rw [hkeys] at hfit
        simp at hfit
  · rename_i hover
    simp only [Bool.or_eq_true, decide_eq_true_eq, not_or, not_lt] at hover
    simp only [Option.bind_eq_bind, Option.bind_eq_some_iff] at hg
    obtain ⟨m, hm, sep, hsep, hg⟩ := hg
    obtain rfl := Option.some.inj hg
    obtain ⟨hl, hr⟩ := interiorSplitPoint_fits hcap hs hover.2 hm
    have hmn := (interiorSplitPoint_mem hm).2
    refine ⟨⟨hl, ?_, fun s h => hs s (List.mem_of_mem_take h), fun c h => ?_⟩,
      hs sep (List.mem_of_getElem? hsep),
      hr, ?_, fun s h => hs s (List.mem_of_mem_drop h), fun c h => ?_⟩
    · simp only [List.length_take]
      omega
    · exact hc c (List.mem_of_mem_take h)
    · simp only [List.length_drop]
      omega
    · exact hc c (List.mem_of_mem_drop h)

/-- What an insert may leave in a leaf: the old records and the new one. -/
theorem leafInsert_room {es : Leaf ρ} (hf : Fits cap shape 0 es)
    {rec : Rec ρ} (hrec : RecordOk cap shape key rec.weight)
    (hs : SortedMap.Sorted es) :
    (∀ e ∈ (leafInsert es key rec).1, RecordOk cap shape e.1 e.2.weight) ∧
      LeafRoom cap shape ((leafInsert es key rec).1.map (·.2.weight)) := by
  obtain ⟨hfit, hes⟩ := hf
  rw [(leafInsert_spec hs key rec).1]
  have hrecs : ∀ e ∈ SortedMap.insert key rec es, RecordOk cap shape e.1 e.2.weight := by
    intro e he
    rcases SortedMap.mem_insert he with rfl | he
    · exact hrec
    · exact hes e he
  refine ⟨hrecs, fun w hw => ?_⟩
  obtain ⟨e, he, rfl⟩ := List.mem_map.mp hw
  have hb := (hrecs e he).bound
  have hb' := hrec.bound
  -- the record lands at the cut, where it is new or replaces the old one
  have hpay : leafPayload ((SortedMap.insert key rec es).map (·.2.weight)) shape ≤
      leafPayload (es.map (·.2.weight)) shape + rec.weight + (4 + shape.fixed + 4 * shape.var) := by
    have hsearch := searchKeys_spec hs key
    cases hres : searchKeys (es.map Prod.fst) key with
    | ok i =>
      simp only [hres] at hsearch
      obtain ⟨l, old, r, rfl, -, hl, -⟩ := hsearch
      rw [SortedMap.insert_present l r hl]
      simp only [leafPayload, List.map_append, List.map_cons, List.sum_append, List.sum_cons,
        List.length_append, List.length_cons, List.length_map]
      omega
    | error i =>
      simp only [hres] at hsearch
      obtain ⟨l, r, rfl, -, hl, hr⟩ := hsearch
      rw [SortedMap.insert_absent l r hl hr]
      have := leafOverhead_succ shape (l.length + r.length)
      simp only [leafPayload, List.map_append, List.map_cons, List.sum_append, List.sum_cons,
        List.length_append, List.length_cons, List.length_map]
      rw [show l.length + (r.length + 1) = l.length + r.length + 1 by omega]
      omega
  simp only [LeafShape.k] at hb hb'
  omega

/-- Insert never runs out of split points, and leaves only nodes that fit. -/
theorem insert_fits (hcap : CapOk cap shape) :
    ∀ {lo hi : Option Bytes} {t : Tree ρ n} {key : Bytes} {rec : Rec ρ}, Ordered n lo hi t →
      KeyChain.InRange lo hi key → Fits cap shape n t → RecordOk cap shape key rec.weight →
      ∃ g old, insertTree cap shape n t key rec = some (g, old) ∧ g.All cap shape (Fits cap shape n) := by
  induction n with
  | zero =>
    intro lo hi t key rec h hk hf hrec
    obtain ⟨hes, hroom⟩ := leafInsert_room hf hrec h.1
    exact ⟨_, _, rfl, buildLeaf_fits hcap hes hroom _⟩
  | succ n ih =>
    intro lo hi t key rec h hk hf hrec
    obtain ⟨hpay, hlen, hseps, hkids⟩ := hf
    obtain ⟨c, lo', hi', hc, -, hr, hp, -⟩ := Ordered.at_slot h hk
    simp only [insertTree]
    generalize childSlot t.keys key = i at *
    obtain ⟨sub, old, hsub, hall⟩ := ih hp hr (hkids c (List.mem_of_getElem? hc)) hrec
    have hil := (List.getElem?_eq_some_iff.mp hc).1
    simp only [hc, hsub, Option.bind_eq_bind, Option.bind_some]
    cases sub with
    | whole c' =>
      refine ⟨_, _, rfl, hpay, by simpa using hlen, hseps, fun x hx => ?_⟩
      rcases List.mem_or_eq_of_mem_set hx with hx | rfl
      · exact hkids x hx
      · exact hall
    | split left sep right =>
      obtain ⟨hleft, hsepOk, hright⟩ := hall
      have hil' : i ≤ t.keys.length := by omega
      have hkeys : ∀ s ∈ t.keys.insertIdx i sep, SepOk cap shape s := by
        intro s hs
        rcases List.eq_or_mem_of_mem_insertIdx hs with rfl | hs
        · exact hsepOk
        · exact hseps s hs
      have hnewLen : ((t.children.set i left).insertIdx (i + 1) right).length =
          (t.keys.insertIdx i sep).length + 1 := by
        simp only [set_insertIdx_eq hil, insertIdx_eq hil', List.length_append, List.length_take,
          List.length_cons, List.length_drop]
        omega
      have hnewKids : ∀ x ∈ (t.children.set i left).insertIdx (i + 1) right, Fits cap shape n x := by
        intro x hx
        rcases List.eq_or_mem_of_mem_insertIdx hx with rfl | hx
        · exact hright
        · rcases List.mem_or_eq_of_mem_set hx with hx | rfl
          · exact hkids x hx
          · exact hleft
      have hsome : ∃ g, buildInterior
          ⟨t.keys.insertIdx i sep, (t.children.set i left).insertIdx (i + 1) right⟩ cap (some i) =
            some g := by
        unfold buildInterior
        split
        · exact ⟨_, rfl⟩
        · rename_i hover
          simp only [Bool.or_eq_true, decide_eq_true_eq, not_or, not_lt] at hover
          have hroom : interiorPayload cap (t.keys.insertIdx i sep) + cap.ptr ≤ 2 * cap.c := by
            have hp := hcap.sep_fits hsepOk
            have e : cap.ptr * (t.keys.length + 1 + 1) =
                cap.ptr * (t.keys.length + 1) + cap.ptr := Nat.mul_succ ..
            have hsum : ((t.keys.insertIdx i sep).map List.length).sum =
                (t.keys.map List.length).sum + sep.length := by
              rw [insertIdx_eq hil']
              conv_rhs => rw [← List.take_append_drop i t.keys]
              simp only [List.map_append, List.map_cons, List.sum_append, List.sum_cons]
              omega
            simp only [interiorPayload, hsum, List.length_insertIdx_of_le_length hil', e] at hpay ⊢
            omega
          obtain ⟨m, hm⟩ := Option.isSome_iff_exists.mp
            (interiorSplitPoint_isSome hcap hkeys (some i) hover.2 hroom)
          obtain ⟨-, hmn⟩ := interiorSplitPoint_mem hm
          simp only [hm, Option.bind_eq_bind, Option.bind_some, List.getElem?_eq_getElem hmn]
          exact ⟨_, rfl⟩
      obtain ⟨g, hg⟩ := hsome
      simp only [hg, Option.bind_some]
      exact ⟨g, old, rfl, buildInterior_fits hcap hnewLen hkeys hnewKids hg⟩

theorem leafPayload_mono (shape : LeafShape) {us ws : List Nat} (h : us.Sublist ws) :
    leafPayload us shape ≤ leafPayload ws shape := by
  have h1 := h.sum_le_sum (by simp)
  have h2 := leafOverhead_mono shape h.length_le
  unfold leafPayload
  omega

theorem underfull_iff {t : Tree ρ n} :
    underfull cap shape n t = true ↔ payload cap shape n t < cap.c / 2 := decide_eq_true_iff

/-- An underfull leaf and a fitting one leave room for a split. -/
theorem mergedLeaf_room {l r : Leaf ρ} (hl : Fits cap shape 0 l) (hr : Fits cap shape 0 r)
    (hunder : underfull cap shape 0 l = true ∨ underfull cap shape 0 r = true) :
    LeafRoom cap shape ((l ++ r).map (·.2.weight)) := by
  intro w hw
  have hwb : 2 * w + 12 + 16 * shape.k ≤ cap.c := by
    obtain ⟨e, he, rfl⟩ := List.mem_map.mp hw
    rcases List.mem_append.mp he with he | he
    · exact (hl.2 e he).bound
    · exact (hr.2 e he).bound
  have hjoin := leafOverhead_join shape (l.map (·.2.weight)).length (r.map (·.2.weight)).length
  have hsum : 2 * (leafPayload (l.map (·.2.weight)) shape +
      leafPayload (r.map (·.2.weight)) shape) ≤ 3 * cap.c := by
    have h1 := hl.1
    have h2 := hr.1
    rcases hunder with hu | hu
    · have : leafPayload (l.map (·.2.weight)) shape < cap.c / 2 := underfull_iff.mp hu
      omega
    · have : leafPayload (r.map (·.2.weight)) shape < cap.c / 2 := underfull_iff.mp hu
      omega
  simp only [LeafShape.k, leafPayload, List.map_append, List.sum_append,
    List.length_append] at hwb hjoin hsum ⊢
  omega

/-- The merged node of a pair fits, one or two of them. -/
theorem mergedPair_fits (hcap : CapOk cap shape)
    {l r : Tree ρ n} {sep : Bytes} {g : Grown (Tree ρ n)} (hl : Fits cap shape n l)
    (hr : Fits cap shape n r) (hs : SepOk cap shape sep)
    (hunder : underfull cap shape n l ∨ underfull cap shape n r)
    (hg : mergedPair cap shape n l sep r = some g) : g.All cap shape (Fits cap shape n) := by
  cases n with
  | zero =>
    obtain rfl := Option.some.inj hg
    refine buildLeaf_fits hcap (fun e he => ?_) (mergedLeaf_room hl hr hunder) none
    rcases List.mem_append.mp he with he | he
    · exact hl.2 e he
    · exact hr.2 e he
  | succ n =>
    obtain ⟨-, hllen, hlseps, hlkids⟩ := hl
    obtain ⟨-, hrlen, hrseps, hrkids⟩ := hr
    refine buildInterior_fits (t := ⟨_, _⟩) hcap ?_ (fun s hs' => ?_) (fun c hc => ?_) hg
    · simp only [List.length_append, List.length_cons]
      omega
    · rcases List.mem_append.mp hs' with hs' | hs'
      · exact hlseps s hs'
      · rcases List.mem_cons.mp hs' with rfl | hs'
        · exact hs
        · exact hrseps s hs'
    · rcases List.mem_append.mp hc with hc | hc
      · exact hlkids c hc
      · exact hrkids c hc

/-- `parent_with` is the payload of the parent with the separator replaced. -/
theorem parentWith_eq {j : Nat} (hj : j < keys.length)
    (sep : Bytes) : interiorPayload cap (keys.set j sep) = parentWith cap keys j sep.length := by
  have hget : keys.getD j [] = keys[j] := by simp [hj]
  have hsum : (keys.map List.length).sum =
      ((keys.take j).map List.length).sum + (keys[j].length +
        ((keys.drop (j + 1)).map List.length).sum) := by
    conv_lhs => rw [eq_cut (List.getElem?_eq_getElem hj)]
    simp only [List.map_append, List.map_cons, List.sum_append, List.sum_cons]
  simp only [parentWith, interiorPayload, hget, hsum, set_eq hj, List.map_append,
    List.map_cons, List.sum_append, List.sum_cons, List.length_append, List.length_take,
    List.length_cons, List.length_drop]
  rw [show min j keys.length + (keys.length - (j + 1) + 1) = keys.length by omega]
  omega

theorem mergeAt_fits (hcap : CapOk cap shape) {t : Inner (Tree ρ n)} (hf : Fits cap shape (n + 1) t) {j : Nat}
    (hj : j + 1 < t.children.length)
    (hunder : underfull cap shape n t.children[j] ∨ underfull cap shape n t.children[j + 1]) :
    ∃ t', mergeAt cap shape n t j = some t' ∧ Fits cap shape (n + 1) t' := by
  obtain ⟨hpay, hlen, hseps, hkids⟩ := hf
  have hjk : j < t.keys.length := by omega
  simp only [mergeAt, List.getElem?_eq_getElem hj,
    List.getElem?_eq_getElem (Nat.lt_of_succ_lt hj), List.getElem?_eq_getElem hjk,
    Option.bind_eq_bind, Option.bind_some]
  cases hg : mergedPair cap shape n t.children[j] t.keys[j] t.children[j + 1] with
  | none => exact ⟨t, rfl, hpay, hlen, hseps, hkids⟩
  | some g =>
    have hall := mergedPair_fits hcap (hkids _ (List.getElem_mem _)) (hkids _ (List.getElem_mem _))
      (hseps _ (List.getElem_mem _)) hunder hg
    refine ⟨_, rfl, ?_⟩
    split
    · exact ⟨hpay, hlen, hseps, hkids⟩
    · rename_i hover
      cases g with
      | whole m =>
        refine ⟨(interiorPayload_mono (List.eraseIdx_sublist _ _)).trans hpay, ?_, ?_, ?_⟩
        · simp only [replacePair, List.length_eraseIdx, List.length_set]
          rw [if_pos hj, if_pos hjk]
          omega
        · exact fun s hs => hseps s (List.mem_of_mem_eraseIdx hs)
        · intro c hc
          rcases List.mem_or_eq_of_mem_set (List.mem_of_mem_eraseIdx hc) with hc | rfl
          · exact hkids c hc
          · exact hall
      | split left sep right =>
        simp only [overflowsParent, decide_eq_true_eq, not_lt] at hover
        obtain ⟨hl, hs, hr⟩ := hall
        refine ⟨(parentWith_eq hjk sep).trans_le hover, by simpa [replacePair] using hlen, ?_, ?_⟩
        · intro s hs'
          rcases List.mem_or_eq_of_mem_set hs' with hs' | rfl
          · exact hseps s hs'
          · exact hs
        · intro c hc
          rcases List.mem_or_eq_of_mem_set hc with hc | rfl
          · rcases List.mem_or_eq_of_mem_set hc with hc | rfl
            · exact hkids c hc
            · exact hl
          · exact hr

theorem rebalanceChild_fits (hcap : CapOk cap shape)
    {t : Inner (Tree ρ n)} (hf : Fits cap shape (n + 1) t) {i : Nat} (hi : i < t.children.length) :
    ∃ t', rebalanceChild cap shape n t i = some t' ∧ Fits cap shape (n + 1) t' := by
  simp only [rebalanceChild, List.getElem?_eq_getElem hi, Option.bind_eq_bind, Option.bind_some]
  cases hu : underfull cap shape n t.children[i] with
  | false => exact ⟨t, rfl, hf⟩
  | true =>
    simp only [Bool.not_true, Bool.false_eq_true, if_false]
    split
    · exact ⟨t, rfl, hf⟩
    · split
      · rename_i hnext
        exact mergeAt_fits hcap hf hnext (.inl hu)
      · refine mergeAt_fits hcap hf (j := i - 1) (by omega) (.inr ?_)
        have : i - 1 + 1 = i := by omega
        simpa only [this] using hu

/-- Remove never panics, and leaves only nodes that fit. -/
theorem remove_fits (hcap : CapOk cap shape) :
    ∀ {lo hi : Option Bytes} {t : Tree ρ n} {key : Bytes}, Ordered n lo hi t →
      KeyChain.InRange lo hi key → Fits cap shape n t →
      ∃ old t', removeTree cap shape n t key = some (old, t') ∧ Fits cap shape n t' := by
  induction n with
  | zero =>
    intro lo hi t key _ _ hf
    simp only [removeTree]
    split
    · exact ⟨_, _, rfl, hf⟩
    · refine ⟨_, _, rfl, ?_, fun e he => hf.2 e (List.mem_of_mem_eraseIdx he)⟩
      exact (leafPayload_mono shape ((List.eraseIdx_sublist _ _).map _)).trans hf.1
  | succ n ih =>
    intro lo hi t key h hk hf
    obtain ⟨hpay, hlen, hseps, hkids⟩ := hf
    obtain ⟨c, lo', hi', hc, -, hr, hp, -⟩ := Ordered.at_slot h hk
    simp only [removeTree]
    generalize childSlot t.keys key = i at *
    obtain ⟨old, c', hsub, hfit⟩ := ih hp hr (hkids c (List.mem_of_getElem? hc))
    have hil := (List.getElem?_eq_some_iff.mp hc).1
    simp only [hc, hsub, Option.bind_eq_bind, Option.bind_some]
    cases old with
    | none => exact ⟨_, _, rfl, hpay, hlen, hseps, hkids⟩
    | some row =>
      have hset : Fits cap shape (n + 1) (⟨t.keys, t.children.set i c'⟩ : Inner (Tree ρ n)) := by
        refine ⟨hpay, by simpa using hlen, hseps, fun x hx => ?_⟩
        rcases List.mem_or_eq_of_mem_set hx with hx | rfl
        · exact hkids x hx
        · exact hfit
      obtain ⟨t', ht', hfit'⟩ := rebalanceChild_fits hcap hset (i := i) (by simpa using hil)
      simp only [ht', Option.bind_some]
      exact ⟨_, _, rfl, hfit'⟩

end Jed.PMap
