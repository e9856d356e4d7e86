import Jed.PMap.FailedRemove

/-!
# Edits next to shared trees

An edit of a tree, by its root alone: the row count is unknown for an index that was loaded from disk.
Whatever the edit comes to, it leaves every tree that is held beside it as it was.
-/

namespace Jed.PMap

open Arc

variable {ε ρ : Type} {disk : Disk ρ} {src : Option (LeafSource ε ρ)} {cap : Cap} {shape : LeafShape}

/-- Two outcomes of an edit that differ in the count at most. -/
structure SameEdit (r r' : Except (Fault ε) (Option ρ) × PMap × Heap ε ρ) : Prop where
  res : r.1 = r'.1
  root : r.2.1.root = r'.2.1.root
  heap : r.2.2 = r'.2.2

theorem insert_sameEdit (src : Option (LeafSource ε ρ)) (cap : Cap) (shape : LeafShape) (h : Heap ε ρ)
    (root : Option Addr) (count count' : Option Int) (key : Bytes) (rec : Rec ρ) :
    SameEdit (PMap.insert src cap shape h ⟨root, count⟩ key rec)
      (PMap.insert src cap shape h ⟨root, count'⟩ key rec) := by
  cases root with
  | none => exact ⟨rfl, rfl, rfl⟩
  | some a =>
    simp only [PMap.insert]
    split <;> exact ⟨rfl, rfl, rfl⟩

theorem remove_sameEdit (src : Option (LeafSource ε ρ)) (cap : Cap) (shape : LeafShape) (h : Heap ε ρ)
    (root : Option Addr) (count count' : Option Int) (key : Bytes) :
    SameEdit (PMap.remove src cap shape h ⟨root, count⟩ key)
      (PMap.remove src cap shape h ⟨root, count'⟩ key) := by
  cases root with
  | none => exact ⟨rfl, rfl, rfl⟩
  | some a =>
    simp only [PMap.remove]
    split
    · exact ⟨rfl, rfl, rfl⟩
    · exact ⟨rfl, rfl, rfl⟩
    · split
      · exact ⟨rfl, rfl, rfl⟩
      · split
        · split
          · exact ⟨rfl, rfl, rfl⟩
          · split <;> exact ⟨rfl, rfl, rfl⟩
        · exact ⟨rfl, rfl, rfl⟩

theorem applyEdit_sameEdit (src : Option (LeafSource ε ρ)) (cap : Cap) (shape : LeafShape)
    (h : Heap ε ρ) (root : Option Addr) (count count' : Option Int) (e : Edit ρ) :
    SameEdit (applyEdit src cap shape h ⟨root, count⟩ e) (applyEdit src cap shape h ⟨root, count'⟩ e) := by
  cases e with
  | insert key rec => exact insert_sameEdit src cap shape h root count count' key rec
  | remove key => exact remove_sameEdit src cap shape h root count count' key

/-- What an edit that failed leaves: a removal may have taken out the row already. -/
def TreeMap.leftBy (tm : TreeMap ρ) (rowGone : Bool) : Edit ρ → TreeMap ρ
  | .insert _ _ => tm
  | .remove key => if rowGone then tm.dropRow key else tm

/-- What an edit leaves, next to the references `owned` by others. -/
inductive RootPost (disk : Disk ρ) (owned : List Addr) (h : Heap ε ρ) (tm : TreeMap ρ) (e : Edit ρ)
    (old : Option ρ) (tm' : TreeMap ρ) : Except (Fault ε) (Option ρ) × PMap × Heap ε ρ → Prop where
  | done {h' : Heap ε ρ} {m' : PMap} (he : Extends Node.kids owned h h')
      (hc : Counted Node.kids h' (m'.refs ++ owned)) (hr : RootRep disk h' m'.root tm'.root) :
      RootPost disk owned h tm e old tm' (.ok old, m', h')
  | failed {f : Fault ε} {h' : Heap ε ρ} {m' : PMap} {rowGone : Bool} (hs : HasPages disk)
      (he : Extends Node.kids owned h h') (hc : Counted Node.kids h' (m'.refs ++ owned))
      (hr : RootRep disk h' m'.root (tm.leftBy rowGone e).root) :
      RootPost disk owned h tm e old tm' (.error f, m', h')

variable {h : Heap ε ρ} {m : PMap} {tm tm' : TreeMap ρ} {owned : List Addr} {e : Edit ρ} {old : Option ρ}

/-- What a failed edit does to the tree that a root represents. -/
theorem failed_edit_leaves (hsrc : SourceOk disk src)
    {f : Fault ε}
    (hc : Counted Node.kids h (m.refs ++ owned)) (hr : RootRep disk h m.root tm.root)
    (he : tm.edit cap shape e = some (old, tm')) (hf : (applyEdit src cap shape h m e).1 = .error f) :
    ∃ rowGone, RootRep disk (applyEdit src cap shape h m e).2.2 (applyEdit src cap shape h m e).2.1.root
      (tm.leftBy rowGone e).root := by
  cases e with
  | insert key rec =>
    have hfate := insert_fate hsrc hc hr he
    simp only [applyEdit] at hf ⊢
    revert hfate hf
    generalize PMap.insert src cap shape h m key rec = r
    intro hf hfate
    cases hfate with
    | done => cases hf
    | kept hr' => exact ⟨false, hr'⟩
  | remove key =>
    have hfate := remove_fate hsrc hc hr he
    simp only [applyEdit] at hf ⊢
    revert hfate hf
    generalize PMap.remove src cap shape h m key = r
    intro hf hfate
    cases hfate with
    | done hl => cases hf
    | kept hr' hl => exact ⟨false, hr'⟩
    | lost hr' hl => exact ⟨true, hr'⟩

/-- An edit of a tree computes the edit of the value that its root represents, or fails on a page. -/
theorem applyEdit_root (hsrc : SourceOk disk src)
    (hc : Counted Node.kids h (m.refs ++ owned))
    (hr : RootRep disk h m.root tm.root) (he : tm.edit cap shape e = some (old, tm')) :
    RootPost disk owned h tm e old tm' (applyEdit src cap shape h m e) := by
  have hleaves : ∀ f, (applyEdit src cap shape h m e).1 = .error f → ∃ rowGone,
      RootRep disk (applyEdit src cap shape h m e).2.2 (applyEdit src cap shape h m e).2.1.root
        (tm.leftBy rowGone e).root := fun f hf => failed_edit_leaves hsrc hc hr he hf
  obtain ⟨root, count⟩ := m
  have hrep : MapRep disk h ⟨root, some tm.count⟩ tm := ⟨rfl, hr⟩
  have hsame := applyEdit_sameEdit src cap shape h root (some tm.count) count e
  have hpost : MapPost disk owned h tm' old (applyEdit src cap shape h ⟨root, some tm.count⟩ e) := by
    cases e with
    | insert key rec => exact pmapInsert_spec hsrc hc hrep he
    | remove key => exact pmapRemove_spec hsrc hc hrep he
  revert hpost hsame hleaves
  generalize applyEdit src cap shape h ⟨root, some tm.count⟩ e = r
  generalize applyEdit src cap shape h ⟨root, count⟩ e = r'
  intro hleaves hsame hpost
  obtain ⟨res', m', g'⟩ := r'
  cases hpost with
  | done hext hc' hr' =>
    obtain ⟨rfl, hroot, rfl⟩ := hsame
    have hroot : _ = m'.root := hroot
    refine .done hext ?_ (hroot ▸ hr'.root)
    rwa [PMap.refs, hroot] at hc'
  | failed hs hext hc' =>
    obtain ⟨rfl, hroot, rfl⟩ := hsame
    have hroot : _ = m'.root := hroot
    obtain ⟨rowGone, hr'⟩ := hleaves _ rfl
    refine .failed hs hext ?_ hr'
    rwa [PMap.refs, hroot] at hc'

theorem RootRep.extends {h' : Heap ε ρ} {live : List Addr}
    {t : Option ((n : Nat) × Tree ρ n)} (hr : RootRep disk h m.root t)
    (he : Extends Node.kids live h h') (hl : ∀ a ∈ m.refs, a ∈ live) : RootRep disk h' m.root t := by
  have hrep : MapRep disk h ⟨m.root, some 0⟩ ⟨t, 0⟩ := ⟨rfl, hr⟩
  exact (hrep.extends he hl).root

/-- A root that is held is there. -/
theorem RootRep.alive
    {t : Option ((n : Nat) × Tree ρ n)} (hr : RootRep disk h m.root t) {a : Addr} (ha : a ∈ m.refs) :
    ∃ c, h.cell a = some c := by
  obtain ⟨root, count⟩ := m
  cases hr with
  | empty => cases ha
  | root hrep =>
    cases List.mem_singleton.mp ha
    obtain ⟨nd, hn, -⟩ := hrep.node
    obtain ⟨c, hc, -⟩ := node?_eq_some.mp hn
    exact ⟨c, hc⟩

theorem RootRep.iter (hsrc : Serves disk src) (hr : RootRep disk h m.root tm.root) :
    m.iter src h = .ok (SortedMap.mapValues Rec.row tm.contents) := by
  obtain ⟨root, count⟩ := m
  obtain ⟨troot, tcount⟩ := tm
  cases hr with
  | empty => rfl
  | root hrep => exact iter_serves hsrc hrep count

end Jed.PMap
