import Jed.Key.Collated
import Jed.Lib.BinarySearch

/-!
# Collation elements

The elements that a compiled collation finds in a text (`collation.rs:513-562`): those of the longest
contraction that is there, or else of the single code point.
-/

namespace Jed.Key

open KeyCodes

/-- `Collation` (`collation.rs:46-63`): the mappings of code points and of sequences of them. -/
structure CompiledCollation where
  singles : List (Nat × List Ce)
  contractions : List (List Nat × List Ce)

namespace CompiledCollation

variable (coll : CompiledCollation)

/-- `lookup_single`. -/
def lookupSingle (cp : Nat) : Option (List Ce) :=
  (BinarySearch.search (fun i => compare ((coll.singles.map Prod.fst).getD i 0) cp)
    coll.singles.length).bind fun i => coll.singles[i]?.map Prod.snd

/-- `lookup_contraction`. -/
def lookupContraction (seq : List Nat) : Option (List Ce) :=
  (BinarySearch.search (fun i => lexCompare ((coll.contractions.map Prod.fst).getD i []) seq)
    coll.contractions.length).bind fun i => coll.contractions[i]?.map Prod.snd

/-- The longest sequence that is mapped. -/
def maxContraction : Nat := (coll.contractions.map fun c => c.1.length).foldr max 0

/-- The contraction of at most `clen` code points that the text starts with, the longest first. -/
def longestFrom (cps : List Nat) : Nat → Option (Nat × List Ce)
  | 0 => none
  | 1 => none
  | clen + 2 =>
    match coll.lookupContraction (cps.take (clen + 2)) with
    | some ces => some (clen + 2, ces)
    | none => longestFrom cps (clen + 1)

attribute [grind =] longestFrom

theorem two_le_of_longestFrom {cps : List ℕ} {clen len : ℕ} {ces : List Ce}
    (h : coll.longestFrom cps clen = some (len, ces)) :
    2 ≤ len ∧ len ≤ clen ∧ coll.lookupContraction (cps.take len) = some ces := by
  induction clen with
  | zero => cases h
  | succ clen ih =>
    cases clen with
    | zero => cases h
    | succ clen =>
      rw [longestFrom] at h
      split at h
      · rename_i hfound
        cases h
        exact ⟨by omega, le_rfl, hfound⟩
      · obtain ⟨htwo, hle, hfound⟩ := ih h
        exact ⟨htwo, hle.trans (Nat.le_succ _), hfound⟩

/-- A hexadecimal number of at least four digits. -/
def hexOf (n : Nat) : String :=
  let digits := (Nat.toDigits 16 n).map Char.toUpper
  String.ofList (List.replicate (4 - digits.length) '0' ++ digits)

def unmapped (cp : Nat) : Failure :=
  .error ⟨.featureNotSupported,
    "collation: code point U+" ++ hexOf cp ++ " has no mapping (implicit weights deferred)", none⟩

/-- `collation_elements` (`collation.rs:515-548`). -/
def collationElements : List Nat → Except Failure (List Ce)
  | [] => .ok []
  | cp :: cps =>
    match _h : coll.longestFrom (cp :: cps) (min coll.maxContraction (cps.length + 1)) with
    | some (len, ces) => do
      let out ← collationElements (cps.drop (len - 1))
      return ces ++ out
    | none =>
      match coll.lookupSingle cp with
      | some ces => do
        let out ← collationElements cps
        return ces ++ out
      | none => .error (unmapped cp)
termination_by cps => cps.length
decreasing_by
  · rw [List.length_drop, List.length_cons]
    omega
  · exact Nat.lt_succ_self _

end CompiledCollation

/-- `s.as_bytes()`. -/
def utf8Bytes (s : String) : Bytes := s.toByteArray.data.toList

/-- `s.chars().map(|c| c as u32)`. -/
def codePoints (s : String) : List Nat := s.toList.map Char.toNat

/-- A collation, as the elements it finds in the bytes of a text. -/
def CompiledCollation.table (coll : CompiledCollation) : Table where
  elements b :=
    match String.fromUTF8? ⟨b.toArray⟩ with
    | some s => coll.collationElements (codePoints s)
    | none => .error .panic

theorem utf8Bytes_inj {s t : String} : utf8Bytes s = utf8Bytes t ↔ s = t := by
  constructor
  · intro h
    refine String.toByteArray_inj.mp ?_
    exact ByteArray.ext (Array.toList_inj.mp h)
  · rintro rfl
    rfl

theorem CompiledCollation.elements_utf8Bytes (coll : CompiledCollation) (s : String) :
    coll.table.elements (utf8Bytes s) = coll.collationElements (codePoints s) := by
  have hback : String.fromUTF8? ⟨(utf8Bytes s).toArray⟩ = some s := by
    have hbytes : (⟨(utf8Bytes s).toArray⟩ : ByteArray) = s.toByteArray := rfl
    rw [hbytes]
    rw [String.fromUTF8?, dif_pos s.isValidUTF8]
    rfl
  show (match String.fromUTF8? _ with | some s => _ | none => _) = _
  rw [hback]

/-- The elements of a text by its segments: each the longest contraction that is there, or else a code
    point on its own. -/
inductive CompiledCollation.Segments (coll : CompiledCollation) : List ℕ → List Ce → Prop where
  | nil : Segments coll [] []
  | contraction {seq rest : List ℕ} {ces out : List Ce} (hlong : 2 ≤ seq.length)
      (hmaps : coll.lookupContraction seq = some ces)
      (hmax : ∀ seq', seq' <+: seq ++ rest → seq.length < seq'.length →
        coll.lookupContraction seq' = none)
      (h : Segments coll rest out) : Segments coll (seq ++ rest) (ces ++ out)
  | single {cp : ℕ} {rest : List ℕ} {ces out : List Ce}
      (hnone : ∀ seq', seq' <+: cp :: rest → 2 ≤ seq'.length → coll.lookupContraction seq' = none)
      (hmaps : coll.lookupSingle cp = some ces)
      (h : Segments coll rest out) : Segments coll (cp :: rest) (ces ++ out)

/-- Tables as they are compiled: code points ascending, and sequences too. -/
structure CompiledCollation.Sorted (coll : CompiledCollation) : Prop where
  singles : (coll.singles.map Prod.fst).Pairwise (· < ·)
  contractions : (coll.contractions.map Prod.fst).Pairwise (· < ·)

theorem lexCompare_lt_iff {β : Type} [LinearOrder β] {s t : List β} :
    lexCompare s t = .lt ↔ s < t := by
  induction s generalizing t with
  | nil =>
    cases t with
    | nil => exact iff_of_false (fun h => by cases h) (lt_irrefl _)
    | cons y t => exact iff_of_true rfl (List.nil_lt_cons y t)
  | cons x s ih =>
    cases t with
    | nil => exact iff_of_false (fun h => by cases h) (List.not_lt_nil _)
    | cons y t =>
      rw [lexCompare, Ordering.then_eq_lt, compare_lt_iff_lt, compare_eq_iff_eq, ih,
        List.cons_lt_cons_iff]

theorem lexCompare_gt_iff {β : Type} [LinearOrder β] {s t : List β} :
    lexCompare s t = .gt ↔ t < s := by
  rcases lt_trichotomy s t with hlt | heq | hgt
  · rw [lexCompare_lt_iff.mpr hlt]
    exact iff_of_false (by decide) hlt.not_gt
  · rw [lexCompare_eq_iff.mpr heq]
    exact iff_of_false (by decide) heq.not_gt
  · refine iff_of_true ?_ hgt
    cases hcmp : lexCompare s t with
    | lt => exact absurd (lexCompare_lt_iff.mp hcmp) hgt.not_gt
    | eq => exact absurd (lexCompare_eq_iff.mp hcmp) hgt.ne'
    | gt => rfl

namespace CompiledCollation

variable {coll : CompiledCollation}

variable {seq : List ℕ} {ces : List Ce}

/-- What a lookup of a sequence finds is in the table. -/
theorem mem_of_lookupContraction (h : coll.lookupContraction seq = some ces) : (seq, ces) ∈ coll.contractions := by
  obtain ⟨i, hfound, hces⟩ := Option.bind_eq_some_iff.mp h
  obtain ⟨hlt, heq⟩ := BinarySearch.search_some hfound
  have hseq : coll.contractions[i].1 = seq := by
    have hkey := lexCompare_eq_iff.mp heq
    rwa [List.getD_eq_getElem?_getD, List.getElem?_map, List.getElem?_eq_getElem hlt] at hkey
  rw [List.getElem?_eq_getElem hlt] at hces
  cases hces
  rw [← hseq]
  exact List.getElem_mem hlt

theorem mem_of_lookupSingle {cp : ℕ} (h : coll.lookupSingle cp = some ces) :
    (cp, ces) ∈ coll.singles := by
  obtain ⟨i, hfound, hces⟩ := Option.bind_eq_some_iff.mp h
  obtain ⟨hlt, heq⟩ := BinarySearch.search_some hfound
  have hcp : coll.singles[i].1 = cp := by
    have hkey := compare_eq_iff_eq.mp heq
    rwa [List.getD_eq_getElem?_getD, List.getElem?_map, List.getElem?_eq_getElem hlt] at hkey
  rw [List.getElem?_eq_getElem hlt] at hces
  cases hces
  rw [← hcp]
  exact List.getElem_mem hlt

theorem lookupContraction_eq_some_iff (h : coll.Sorted) :
    coll.lookupContraction seq = some ces ↔ (seq, ces) ∈ coll.contractions := by
  refine ⟨mem_of_lookupContraction, fun hmem => ?_⟩
  obtain ⟨k, hlt, hk⟩ := List.getElem_of_mem hmem
  have hfound := BinarySearch.search_of_pairwise (k := k) (fun _ _ => lexCompare_lt_iff)
    (fun _ _ => lexCompare_gt_iff) [] h.contractions (by rwa [List.length_map])
  rw [List.getElem_map, hk, List.length_map] at hfound
  rw [lookupContraction, hfound, Option.bind_some, List.getElem?_eq_getElem hlt, hk]
  rfl

theorem lookupSingle_eq_some_iff (h : coll.Sorted) {cp : ℕ} :
    coll.lookupSingle cp = some ces ↔ (cp, ces) ∈ coll.singles := by
  refine ⟨mem_of_lookupSingle, fun hmem => ?_⟩
  obtain ⟨k, hlt, hk⟩ := List.getElem_of_mem hmem
  have hfound := BinarySearch.search_of_pairwise (k := k) (fun _ _ => compare_lt_iff_lt)
    (fun _ _ => compare_gt_iff_gt) 0 h.singles (by rwa [List.length_map])
  rw [List.getElem_map, hk, List.length_map] at hfound
  rw [lookupSingle, hfound, Option.bind_some, List.getElem?_eq_getElem hlt, hk]
  rfl

theorem le_maxContraction (h : coll.lookupContraction seq = some ces) : seq.length ≤ coll.maxContraction := by
  have hmem : seq.length ∈ coll.contractions.map fun c => c.1.length :=
    List.mem_map_of_mem (f := fun c : List ℕ × List Ce => c.1.length) (mem_of_lookupContraction h)
  unfold maxContraction
  generalize (coll.contractions.map fun c => c.1.length) = lengths at hmem
  induction lengths with
  | nil => cases hmem
  | cons n ns ih =>
    cases List.mem_cons.mp hmem with
    | inl heq => exact heq ▸ le_max_left _ _
    | inr hmem => exact (ih hmem).trans (le_max_right _ _)

/-- No contraction is passed over: those longer than what is found are not there. -/
theorem longestFrom_max {cps : List ℕ} {clen : ℕ} :
    ∀ n, 2 ≤ n → n ≤ clen → (∀ p, coll.longestFrom cps clen = some p → p.1 < n) →
      coll.lookupContraction (cps.take n) = none := by
  induction clen with
  | zero =>
    intro n htwo hle
    omega
  | succ clen ih =>
    cases clen with
    | zero =>
      intro n htwo hle
      omega
    | succ clen =>
      intro n htwo hle hlonger
      rw [longestFrom] at hlonger
      split at hlonger
      · have hlt : clen + 2 < n := hlonger _ rfl
        omega
      · rename_i hnone
        by_cases hn : n = clen + 1 + 1
        · rw [hn]
          exact hnone
        · exact ih n htwo (by omega) hlonger

/-- A contraction that a text starts with is no longer than the one that is found there. -/
theorem lookup_none_of_longer {cps seq : List ℕ} (hfront : seq <+: cps) (hlong : 2 ≤ seq.length)
    (hlonger : ∀ p, coll.longestFrom cps (min coll.maxContraction cps.length) = some p →
      p.1 < seq.length) : coll.lookupContraction seq = none := by
  cases hfound : coll.lookupContraction seq with
  | none => rfl
  | some ces =>
    have hmax := le_maxContraction hfound
    have hlen := hfront.length_le
    have hnone := longestFrom_max seq.length hlong (le_min hmax hlen) hlonger
    rw [← List.prefix_iff_eq_take.mp hfront, hfound] at hnone
    cases hnone

/-- The elements that are found are those of the segments. -/
theorem segments_of_collationElements {cps : List ℕ}
    (h : coll.collationElements cps = .ok ces) : coll.Segments cps ces := by
  induction hn : cps.length using Nat.strong_induction_on generalizing cps ces with
  | h n ih =>
    cases cps with
    | nil =>
      rw [collationElements] at h
      cases h
      exact .nil
    | cons cp cps =>
      rw [collationElements] at h
      rw [List.length_cons] at hn
      have hfound := @lookup_none_of_longer coll (cp :: cps)
      rw [List.length_cons] at hfound
      split at h
      · rename_i len found hlongest
        obtain ⟨out, hout, h⟩ := Results.bind_eq_ok.mp h
        cases h
        obtain ⟨htwo, hle, hmaps⟩ := coll.two_le_of_longestFrom hlongest
        have hlen : len ≤ cps.length + 1 := hle.trans (min_le_right _ _)
        have hrest := ih (cps.length - (len - 1)) (by omega) hout (List.length_drop ..)
        have hdrop : cps.drop (len - 1) = (cp :: cps).drop len := by
          rw [show len = len - 1 + 1 by omega, List.drop_succ_cons]
          rfl
        have htake : ((cp :: cps).take len).length = len := by
          rw [List.length_take, List.length_cons]
          omega
        have hseg := @Segments.contraction coll _ (cps.drop (len - 1)) _ _ (by rw [htake]; exact htwo) hmaps
          (fun seq hfront hlonger => by
            rw [hdrop, List.take_append_drop] at hfront
            rw [htake] at hlonger
            exact hfound hfront (by omega) fun p hp => by
              rw [hlongest] at hp
              cases hp
              exact hlonger) hrest
        rwa [hdrop, List.take_append_drop] at hseg
      · rename_i hlongest
        split at h
        · rename_i found hmaps
          obtain ⟨out, hout, h⟩ := Results.bind_eq_ok.mp h
          cases h
          refine .single (fun seq hfront hlong => hfound hfront hlong fun p hp => ?_) hmaps
            (ih cps.length (by omega) hout rfl)
          rw [hlongest] at hp
          cases hp
        · cases h

end CompiledCollation

/-- Sort keys of texts under a collation are in the order of the weights that its table gives to their
    longest segments, level by level, and of their bytes last; texts of one key are one, and no key
    starts another. -/
theorem sortKey_extends_levels (coll : CompiledCollation) (a b : String) {keyA keyB : Bytes}
    (ha : sortKey coll.table (utf8Bytes a) = .ok keyA)
    (hb : sortKey coll.table (utf8Bytes b) = .ok keyB) :
    (∃ xs ys, coll.Segments (codePoints a) xs ∧ coll.Segments (codePoints b) ys ∧
      lexCompare keyA keyB = (levelsCmp xs ys).then (lexCompare (utf8Bytes a) (utf8Bytes b))) ∧
      (keyA = keyB ↔ a = b) ∧ (keyA <+: keyB → keyA = keyB) ∧
      (coll.Sorted → (∀ seq ces, coll.lookupContraction seq = some ces ↔ (seq, ces) ∈ coll.contractions) ∧
        ∀ cp ces, coll.lookupSingle cp = some ces ↔ (cp, ces) ∈ coll.singles) := by
  obtain ⟨xs, hxs, -⟩ := Results.bind_eq_ok.mp ha
  obtain ⟨ys, hys, -⟩ := Results.bind_eq_ok.mp hb
  obtain ⟨s, t, hs, ht, hcodes⟩ := coded_sortKey coll.table hxs hys
  cases ha.symm.trans hs
  cases hb.symm.trans ht
  have heq : keyA = keyB ↔ a = b := by
    rw [hcodes.eq_iff, textCmp_eq_iff, lexCompare_eq_iff, utf8Bytes_inj]
  refine ⟨⟨xs, ys, ?_, ?_, ?_⟩, heq, fun hfront => hcodes.eq_of_prefix (.inl hfront), fun hsorted =>
    ⟨fun _ _ => CompiledCollation.lookupContraction_eq_some_iff hsorted,
      fun _ _ => CompiledCollation.lookupSingle_eq_some_iff hsorted⟩⟩
  · rw [coll.elements_utf8Bytes] at hxs
    exact CompiledCollation.segments_of_collationElements hxs
  · rw [coll.elements_utf8Bytes] at hys
    exact CompiledCollation.segments_of_collationElements hys
  · have hcmp := hcodes.lexCompare
    rwa [textCmp, hxs, hys] at hcmp

/-- An element of given weights. -/
def ce (l1 l2 l3 : UInt16) : Ce := ⟨l1.toFin, l2.toFin, l3.toFin⟩

/-- A table of `c`, of `h`, and of the two together. -/
def smallCollation : CompiledCollation where
  singles := [(99, [ce 10 32 2]), (104, [ce 20 32 2])]
  contractions := [([99, 104], [ce 15 32 2])]

theorem smallCollation_sorted : smallCollation.Sorted where
  singles := by decide
  contractions := by decide

theorem elements_c : smallCollation.collationElements [99] = .ok [ce 10 32 2] := by
  have hsingle : smallCollation.lookupSingle 99 = some [ce 10 32 2] :=
    (CompiledCollation.lookupSingle_eq_some_iff smallCollation_sorted).mpr List.mem_cons_self
  rw [CompiledCollation.collationElements]
  split
  · rename_i hlongest
    cases hlongest
  · rw [hsingle, CompiledCollation.collationElements]
    rfl

theorem elements_ch : smallCollation.collationElements [99, 104] = .ok [ce 15 32 2] := by
  have hpair : smallCollation.lookupContraction [99, 104] = some [ce 15 32 2] :=
    (CompiledCollation.lookupContraction_eq_some_iff smallCollation_sorted).mpr List.mem_cons_self
  have hlongest : smallCollation.longestFrom [99, 104] (min smallCollation.maxContraction 2)
      = some (2, [ce 15 32 2]) := by
    rw [show min smallCollation.maxContraction 2 = 2 from rfl, CompiledCollation.longestFrom,
      show [99, 104].take (0 + 2) = [99, 104] from rfl, hpair]
  rw [CompiledCollation.collationElements]
  split
  · rename_i hfound
    cases hlongest.symm.trans hfound
    rw [show [104].drop (2 - 1) = ([] : List ℕ) from rfl, CompiledCollation.collationElements]
    rfl
  · rename_i hnone
    cases hlongest.symm.trans hnone

theorem sortKey_extends_levels_ch : ∃ keyC keyCh,
    sortKey smallCollation.table (utf8Bytes "c") = .ok keyC ∧
      sortKey smallCollation.table (utf8Bytes "ch") = .ok keyCh ∧ (keyC = keyCh ↔ "c" = "ch") ∧
        (keyC <+: keyCh → keyC = keyCh) := by
  have hc : smallCollation.table.elements (utf8Bytes "c") = .ok [ce 10 32 2] := by
    rw [CompiledCollation.elements_utf8Bytes, show codePoints "c" = [99] from by decide, elements_c]
  have hch : smallCollation.table.elements (utf8Bytes "ch") = .ok [ce 15 32 2] := by
    rw [CompiledCollation.elements_utf8Bytes, show codePoints "ch" = [99, 104] from by decide,
      elements_ch]
  obtain ⟨keyC, keyCh, hkeyC, hkeyCh, -⟩ := coded_sortKey smallCollation.table hc hch
  have hall := sortKey_extends_levels smallCollation "c" "ch" hkeyC hkeyCh
  exact ⟨keyC, keyCh, hkeyC, hkeyCh, hall.2.1, hall.2.2.1⟩

end Jed.Key
