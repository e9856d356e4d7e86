import Jed.Lib.SortedMap

/-!
# Sparse overrides

A map that adds to another or replaces what it binds is kept as the bindings that differ: written over
the other they give the map back.
-/

namespace SortedMap

variable {κ β : Type} [LinearOrder κ]

/-- Bindings inserted in turn. -/
def insertAll (m : List (κ × β)) (es : List (κ × β)) : List (κ × β) :=
  es.foldl (fun m e => insert e.1 e.2 m) m

/-- A list of bindings as a map, a later binding of a key replacing the earlier. -/
def collect (es : List (κ × β)) : List (κ × β) := insertAll [] es

/-- The bindings of `full` that `base` lacks or binds otherwise. -/
def diff [DecidableEq β] (full base : List (κ × β)) : List (κ × β) :=
  full.filter fun e => get e.1 (collect base) ≠ some e.2

/-- `delta` written over `base`. -/
def override (base delta : List (κ × β)) : List (κ × β) := insertAll (collect base) delta

variable {es : List (κ × β)}

theorem Sorted.insertAll :
    ∀ {m : List (κ × β)}, Sorted m → Sorted (insertAll m es) := by
  induction es with
  | nil => exact fun h => h
  | cons e es ih => exact fun h => ih (h.insert e.1 e.2)

theorem Sorted.mem_iff {m : List (κ × β)} (h : Sorted m) {e : κ × β} : e ∈ m ↔ get e.1 m = some e.2 := by
  induction m with
  | nil => simp
  | cons d m ih =>
    obtain ⟨hlt, hrest⟩ := Sorted.cons_iff.mp h
    rw [get_cons, List.mem_cons]
    by_cases hkey : d.1 = e.1
    · rw [if_pos hkey, Option.some.injEq]
      constructor
      · rintro (rfl | hmem)
        · rfl
        · exact absurd hkey (hlt e hmem).ne
      · exact fun hval => .inl (Prod.ext hkey.symm hval.symm)
    · rw [if_neg hkey, ← ih hrest]
      constructor
      · rintro (rfl | hmem)
        · exact absurd rfl hkey
        · exact hmem
      · exact .inr

theorem Sorted.ext {m n : List (κ × β)} (hm : Sorted m) (hn : Sorted n)
    (h : ∀ k, get k m = get k n) : m = n := by
  have hirrefl : Std.Irrefl fun a b : κ × β => a.1 < b.1 := ⟨fun a => lt_irrefl a.1⟩
  have hasymm : Std.Antisymm fun a b : κ × β => a.1 < b.1 :=
    ⟨fun a b hab hba => absurd (hab.trans hba) (lt_irrefl a.1)⟩
  refine List.Pairwise.eq_of_mem_iff hm hn fun e => ?_
  rw [hm.mem_iff, hn.mem_iff, h]

theorem get_insertAll (h : Sorted es) : ∀ (m : List (κ × β)) (k : κ),
    get k (insertAll m es) = (get k es).or (get k m) := by
  induction es with
  | nil => exact fun _ _ => rfl
  | cons e es ih =>
    intro m k
    obtain ⟨hlt, hrest⟩ := Sorted.cons_iff.mp h
    rw [insertAll, List.foldl_cons]
    have hnext := ih hrest (insert e.1 e.2 m) k
    rw [insertAll] at hnext
    rw [hnext, get_cons, get_insert]
    by_cases hkey : e.1 = k
    · subst hkey
      rw [get_eq_none fun d hd => (hlt d hd).ne']
      simp
    · simp [hkey, Ne.symm hkey]

theorem get_collect (h : Sorted es) (k : κ) : get k (collect es) = get k es := by
  rw [collect, get_insertAll h, get_nil, Option.or_none]

/-- Where `full` keeps every key of `base`, the bindings that differ give it back. -/
theorem override_diff [DecidableEq β] {full base : List (κ × β)} (hfull : Sorted full)
    (hbase : Sorted base) (hkeys : ∀ e ∈ base, ∃ v, get e.1 full = some v) : override base (diff full base) = full := by
  have hdiff : Sorted (diff full base) := hfull.of_sublist List.filter_sublist
  have hcollect : Sorted (collect base) := Sorted.insertAll List.Pairwise.nil
  refine (Sorted.insertAll hcollect).ext hfull fun k => ?_
  rw [get_insertAll hdiff, get_collect hbase]
  cases hk : get k full with
  | none =>
    have hno : get k (diff full base) = none := by
      refine get_eq_none fun e he hkey => ?_
      rw [← hkey, hfull.mem_iff.mp (List.mem_filter.mp he).1] at hk
      cases hk
    have hno' : get k base = none := by
      refine get_eq_none fun e he hkey => ?_
      obtain ⟨v, hv⟩ := hkeys e he
      rw [hkey, hk] at hv
      cases hv
    rw [hno, hno', Option.or_none]
  | some v =>
    by_cases hsame : get k base = some v
    · have hno : get k (diff full base) = none := by
        refine get_eq_none fun e he hkey => ?_
        obtain ⟨hmem, hne⟩ := List.mem_filter.mp he
        have hval := hfull.mem_iff.mp hmem
        rw [hkey, hk] at hval
        rw [get_collect hbase, hkey, hsame, hval] at hne
        simp at hne
      rw [hno, hsame, Option.none_or]
    · have hyes : get k (diff full base) = some v := by
        have hmem : (k, v) ∈ full := hfull.mem_iff.mpr hk
        have hkept : (k, v) ∈ diff full base := by
          refine List.mem_filter.mpr ⟨hmem, ?_⟩
          rw [get_collect hbase]
          simpa using hsame
        exact hdiff.mem_iff.mp hkept
      rw [hyes, Option.some_or]

end SortedMap
