import Jed.Lib.MapRel
import Jed.PMap.RootEdits
import Jed.Txn.Snapshot

/-!
# Snapshots without sharing

The same writes, on snapshots whose trees are sorted maps of their own. A snapshot whose trees share nodes
with others reads as one that shares nothing, and a write to it leaves the others as they were.
-/

namespace Jed.Txn

open Arc PMap SortedMap

variable {ε ρ κ : Type}

/-- How an edit fails. -/
structure Failure (ε : Type) where
  fault : Fault ε
  rowGone : Bool

/-- Trees that are values, so that a copy of one is the whole of it. The edits are told in turn which of
    them a page fails to load in. -/
def treeValues : TreeOps ε ρ (TreeMap ρ) (List (Option (Failure ε))) where
  new := .new
  edit cap shape faults tm e :=
    match faults with
    | some f :: faults => (.error f.fault, tm.leftBy f.rowGone e, faults)
    | faults =>
      match tm.edit cap shape e with
      | some (old, tm) => (.ok old, tm, faults.tail)
      | none => (.error .panic, tm, faults.tail)
  clone faults _ := faults
  drop faults _ := faults

/-- What values come to when they are told of the pages that do not load, and are told no more. -/
def Told {α β : Type} (disk : Disk ρ)
    (f : List (Option (Failure ε)) → α × β × List (Option (Failure ε))) (res : α) (b : β) : Prop :=
  ∃ told : List (Option (Failure ε)), (∀ x, some x ∈ told → HasPages disk) ∧
    ∀ faults, f (told ++ faults) = (res, b, faults)

theorem Told.nothing {α β : Type} {disk : Disk ρ}
    {f : List (Option (Failure ε)) → α × β × List (Option (Failure ε))} {res : α} {b : β}
    (hf : ∀ faults, f faults = (res, b, faults)) : Told disk f res b :=
  ⟨[], fun _ hx => (by cases hx), hf⟩

/-- One run after another: what the second is told comes behind. -/
theorem Told.bind {α β γ δ : Type} {disk : Disk ρ}
    {f : List (Option (Failure ε)) → α × β × List (Option (Failure ε))} {res : α} {b : β}
    {g k : List (Option (Failure ε)) → γ × δ × List (Option (Failure ε))} {res' : γ} {d : δ}
    (hf : Told disk f res b) (hg : Told disk g res' d)
    (hk : ∀ faults faults', f faults = (res, b, faults') → k faults = g faults') :
    Told disk k res' d := by
  obtain ⟨told, hpages, hf⟩ := hf
  obtain ⟨told', hpages', hg⟩ := hg
  refine ⟨told ++ told', fun x hx => ?_, fun faults => ?_⟩
  · cases List.mem_append.mp hx with
    | inl hx => exact hpages x hx
    | inr hx => exact hpages' x hx
  · rw [List.append_assoc, hk _ _ (hf _), hg]

theorem Told.map {α β γ δ : Type} {disk : Disk ρ}
    {f : List (Option (Failure ε)) → α × β × List (Option (Failure ε))} {res : α} {b : β}
    {k : List (Option (Failure ε)) → γ × δ × List (Option (Failure ε))} {res' : γ} {d : δ}
    (hf : Told disk f res b)
    (hk : ∀ faults faults', f faults = (res, b, faults') → k faults = (res', d, faults')) :
    Told disk k res' d :=
  hf.bind (Told.nothing fun _ => rfl) hk

/-- A store is as a store of values says; the tree of a `whole` one can be edited. -/
structure StoreSim (whole : Bool) (disk : Disk ρ) (h : Heap ε ρ) (st : TableStore PMap)
    (v : TableStore (TreeMap ρ)) : Prop where
  nextRowid : st.nextRowid = v.nextRowid
  cap : st.cap = v.cap
  shape : st.shape = v.shape
  tree : RootRep disk h st.rows.root v.rows.root
  whole : whole → v.rows.Ok st.cap st.shape

/-- The references that stores hold. -/
def refsOf (stores : List (TableStore PMap)) : List Addr := stores.flatMap fun st => st.rows.refs

theorem refsOf_perm {a b : List (TableStore PMap)} (h : a.Perm b) : (refsOf a).Perm (refsOf b) :=
  h.flatMap_right _

theorem refsOf_append (a b : List (TableStore PMap)) : refsOf (a ++ b) = refsOf a ++ refsOf b :=
  List.flatMap_append

theorem refsOf_cons (st : TableStore PMap) (a : List (TableStore PMap)) :
    refsOf (st :: a) = st.rows.refs ++ refsOf a := rfl

section Stores

variable {whole : Bool} {disk : Disk ρ} {h h' : Heap ε ρ} {owned live : List Addr}

variable {st : TableStore PMap}

theorem StoreSim.extends {v : TableStore (TreeMap ρ)}
    (hs : StoreSim whole disk h st v) (he : Extends Node.kids live h h')
    (hl : ∀ a ∈ st.rows.refs, a ∈ live) : StoreSim whole disk h' st v :=
  { hs with tree := hs.tree.extends he hl }

theorem StoreSim.imp {whole' : Bool} {v : TableStore (TreeMap ρ)}
    (hs : StoreSim whole disk h st v) (hweak : whole' → whole) : StoreSim whole' disk h st v :=
  { hs with whole := fun hwhole => hs.whole (hweak hwhole) }

theorem storesSim_extends {stores : ByName (TableStore PMap)} {v : ByName (TableStore (TreeMap ρ))}
    (hs : Rel (StoreSim whole disk h) stores v) (he : Extends Node.kids live h h')
    (hl : ∀ a ∈ refsOf (stores.map Prod.snd), a ∈ live) : Rel (StoreSim whole disk h') stores v :=
  hs.mono fun _ _ hmem hst => hst.extends he fun _ hx =>
    hl _ (List.mem_flatMap.mpr ⟨_, List.mem_map_of_mem hmem, hx⟩)

/-- Stores that are as values say, next to the references `owned` by others. -/
structure StoresOk (whole : Bool) (disk : Disk ρ) (owned : List Addr) (h : Heap ε ρ)
    (stores : ByName (TableStore PMap)) (v : ByName (TableStore (TreeMap ρ))) : Prop where
  counted : Counted Node.kids h (refsOf (stores.map Prod.snd) ++ owned)
  sorted : Sorted stores
  sim : Rel (StoreSim whole disk h) stores v

/-- What a write to stores leaves: stores as values say, and what others hold. -/
structure StoresStep (whole : Bool) (disk : Disk ρ) (owned : List Addr) (h h' : Heap ε ρ)
    (stores : ByName (TableStore PMap)) (v : ByName (TableStore (TreeMap ρ))) : Prop extends
    StoresOk whole disk owned h' stores v where
  keeps : Extends Node.kids owned h h'

theorem StoresOk.refl {stores : ByName (TableStore PMap)} {v : ByName (TableStore (TreeMap ρ))}
    (hok : StoresOk whole disk owned h stores v) : StoresStep whole disk owned h h stores v :=
  ⟨hok, .refl _ _⟩

variable {stores : ByName (TableStore PMap)} {v : ByName (TableStore (TreeMap ρ))}
  (src : Option (LeafSource ε ρ)) (faults : List (Option (Failure ε)))

/-- Stores that lose one reference list are as values say when that is dropped. -/
theorem dropTrees_step {removed : List (TableStore PMap)}
    (hc : Counted Node.kids h (refsOf removed ++ (refsOf (stores.map Prod.snd) ++ owned)))
    (hsorted : Sorted stores) (hsim : Rel (StoreSim whole disk h) stores v) :
    StoresStep whole disk owned h ((nodeTrees src).drop h (removed.map (·.rows))) stores v := by
  have hrefs : (removed.map (·.rows)).flatMap PMap.refs = refsOf removed := by
    rw [refsOf, List.flatMap_map]
  show StoresStep whole disk owned h (h.dropAll Node.kids ((removed.map (·.rows)).flatMap PMap.refs)) stores v
  rw [hrefs]
  obtain ⟨hc', he⟩ := dropAll_spec h (refsOf removed) hc
  exact ⟨⟨hc', hsorted, storesSim_extends hsim he fun _ ha => List.mem_append_left _ ha⟩,
    he.mono fun _ ha => List.mem_append_right _ ha⟩

theorem putStore_step {w : TableStore (TreeMap ρ)} (name : Name)
    (hc : Counted Node.kids h (st.rows.refs ++ (refsOf (stores.map Prod.snd) ++ owned)))
    (hsorted : Sorted stores) (hsim : Rel (StoreSim whole disk h) stores v)
    (hst : StoreSim whole disk h st w) :
    StoresStep whole disk owned h (Snapshot.putStore (nodeTrees src) name st stores h).2
      (Snapshot.putStore (nodeTrees src) name st stores h).1
      (Snapshot.putStore treeValues name w v faults).1 := by
  refine dropTrees_step src (hc.perm ?_) (hsorted.insert name st) (hsim.insert name hst)
  have hperm := refsOf_perm (insert_perm hsorted name st)
  rw [refsOf_append, refsOf_cons] at hperm
  rw [← List.append_assoc, ← List.append_assoc]
  exact hperm.append_right owned

theorem dropStore_step (name : Name) (hok : StoresOk whole disk owned h stores v) :
    StoresStep whole disk owned h (Snapshot.dropStore (nodeTrees src) name stores h).2
      (Snapshot.dropStore (nodeTrees src) name stores h).1
      (Snapshot.dropStore treeValues name v faults).1 := by
  refine dropTrees_step src (hok.counted.perm ?_) (hok.sorted.erase name) (hok.sim.erase name)
  have hperm := refsOf_perm (erase_perm hok.sorted name)
  rw [refsOf_append] at hperm
  rw [← List.append_assoc]
  exact hperm.append_right owned

theorem emptyStore_sim (cap : Cap) (shape : LeafShape) :
    StoreSim whole disk h (Snapshot.emptyStore (nodeTrees src) cap shape)
      (Snapshot.emptyStore (treeValues : TreeOps ε ρ _ _) cap shape) where
  nextRowid := rfl
  cap := rfl
  shape := rfl
  tree := .empty
  whole _ := TreeMap.new_ok

theorem putEmptyStore_step (name : Name) (cap : Cap) (shape : LeafShape)
    (hok : StoresOk whole disk owned h stores v) :
    StoresStep whole disk owned h
      (Snapshot.putStore (nodeTrees src) name (Snapshot.emptyStore (nodeTrees src) cap shape) stores h).2
      (Snapshot.putStore (nodeTrees src) name (Snapshot.emptyStore (nodeTrees src) cap shape) stores h).1
      (Snapshot.putStore treeValues name (Snapshot.emptyStore (treeValues : TreeOps ε ρ _ _) cap shape) v
        faults).1 :=
  putStore_step src faults name hok.counted hok.sorted hok.sim (emptyStore_sim src cap shape)

theorem renameStore_step (old new : Name) (hok : StoresOk whole disk owned h stores v) :
    StoresStep whole disk owned h (Snapshot.renameStore (nodeTrees src) old new stores h).2
      (Snapshot.renameStore (nodeTrees src) old new stores h).1
      (Snapshot.renameStore treeValues old new v faults).1 := by
  unfold Snapshot.renameStore
  rcases hok.sim.get old with ⟨hnone, hnone'⟩ | ⟨st, w, hst, hw, hsim⟩
  · rw [hnone, hnone']
    exact hok.refl
  · rw [hst, hw]
    refine putStore_step src faults new (hok.counted.perm ?_) (hok.sorted.erase old) (hok.sim.erase old) hsim
    have hperm := refsOf_perm (erase_perm hok.sorted old)
    rw [hst, refsOf_append] at hperm
    rw [← List.append_assoc]
    refine (hperm.append_right owned).trans ?_
    rw [show refsOf (some st).toList = st.rows.refs from List.append_nil _]

theorem truncateStore_step (name : Name) (hok : StoresOk whole disk owned h stores v) :
    StoresStep whole disk owned h (Snapshot.truncateStore (nodeTrees src) stores h name).2
      (Snapshot.truncateStore (nodeTrees src) stores h name).1
      (Snapshot.truncateStore treeValues v faults name).1 := by
  unfold Snapshot.truncateStore
  rcases hok.sim.get name with ⟨hnone, hnone'⟩ | ⟨st, w, hst, hw, hsim⟩
  · rw [hnone, hnone']
    exact hok.refl
  · rw [hst, hw]
    refine putStore_step src faults name hok.counted hok.sorted hok.sim
      ⟨hsim.nextRowid, hsim.cap, hsim.shape, .empty, fun _ => TreeMap.new_ok⟩

theorem StoresStep.trans {h'' : Heap ε ρ} {stores' : ByName (TableStore PMap)}
    {v' : ByName (TableStore (TreeMap ρ))} (hstep : StoresStep whole disk owned h h' stores v)
    (hnext : StoresStep whole disk owned h' h'' stores' v') :
    StoresStep whole disk owned h h'' stores' v' :=
  ⟨hnext.toStoresOk, hstep.keeps.trans hnext.keeps⟩

theorem dropStores_step (names : List Name) :
    ∀ {h : Heap ε ρ} {stores : ByName (TableStore PMap)} {v : ByName (TableStore (TreeMap ρ))},
    StoresOk whole disk owned h stores v →
    StoresStep whole disk owned h (Snapshot.dropStores (nodeTrees src) names stores h).2
      (Snapshot.dropStores (nodeTrees src) names stores h).1
      (Snapshot.dropStores treeValues names v faults).1 := by
  induction names with
  | nil => exact fun hok => hok.refl
  | cons name names ih =>
    intro h stores v hok
    have hstep := dropStore_step src faults name hok
    exact hstep.trans (ih hstep.toStoresOk)

theorem truncateStore_faults (name : Name) (v : ByName (TableStore (TreeMap ρ))) :
    (Snapshot.truncateStore (treeValues : TreeOps ε ρ _ _) v faults name).2 = faults := by
  unfold Snapshot.truncateStore
  split <;> rfl

theorem truncateStores_step (names : List Name) :
    ∀ {h : Heap ε ρ} {stores : ByName (TableStore PMap)} {v : ByName (TableStore (TreeMap ρ))},
    StoresOk whole disk owned h stores v →
    StoresStep whole disk owned h (Snapshot.truncateStores (nodeTrees src) names stores h).2
      (Snapshot.truncateStores (nodeTrees src) names stores h).1
      (Snapshot.truncateStores treeValues names v faults).1 := by
  induction names with
  | nil => exact fun hok => hok.refl
  | cons name names ih =>
    intro h stores v hok
    have hstep := truncateStore_step src faults name hok
    rw [Snapshot.truncateStores, Snapshot.truncateStores]
    dsimp only
    rw [truncateStore_faults]
    exact hstep.trans (ih hstep.toStoresOk)

end Stores

section Edits

variable {disk : Disk ρ} {h : Heap ε ρ} {owned : List Addr} {stores : ByName (TableStore PMap)}
  {v : ByName (TableStore (TreeMap ρ))} {src : Option (LeafSource ε ρ)}

/-- Stores that one is written to: the others stay beside its references. -/
theorem StoresOk.modify {whole whole' : Bool} {h' : Heap ε ρ} {name : Name} {st st' : TableStore PMap}
    {w' : TableStore (TreeMap ρ)} (hok : StoresOk whole disk owned h stores v) (hweak : whole' → whole)
    (hget : SortedMap.get name stores = some st)
    (hstep : Counted Node.kids h (st.rows.refs ++ (refsOf ((erase name stores).map Prod.snd) ++ owned)) →
      Counted Node.kids h' (st'.rows.refs ++ (refsOf ((erase name stores).map Prod.snd) ++ owned)) ∧
        Extends Node.kids (refsOf ((erase name stores).map Prod.snd) ++ owned) h h')
    (hst : StoreSim whole' disk h' st' w') :
    StoresStep whole' disk owned h h' (SortedMap.insert name st' stores) (SortedMap.insert name w' v) := by
  have hperm := refsOf_perm (erase_perm hok.sorted name)
  rw [hget, refsOf_append, show refsOf (some st).toList = st.rows.refs from List.append_nil _] at hperm
  have hcut := hok.counted.perm (hperm.append_right owned)
  rw [List.append_assoc] at hcut
  obtain ⟨hc', he⟩ := hstep hcut
  have hnew := refsOf_perm (insert_perm_erase hok.sorted name st')
  rw [refsOf_cons] at hnew
  refine ⟨⟨(hc'.perm ?_), hok.sorted.insert name st', ?_⟩, he.mono fun a ha => List.mem_append_right _ ha⟩
  · rw [← List.append_assoc]
    exact (hnew.symm.append_right owned)
  · have hother : Rel (StoreSim whole' disk h') (erase name stores) (erase name v) := by
      refine (hok.sim.erase name).mono fun a b hmem hab => ?_
      have hab := hab.extends he fun x hx => List.mem_append_left _
        (List.mem_flatMap.mpr ⟨_, List.mem_map_of_mem hmem, hx⟩)
      exact hab.imp hweak
    have hins := hother.insert name hst
    rwa [insert_erase_self hok.sorted, insert_erase_self (hok.sim.sorted hok.sorted)] at hins

/-- An edit fails on a page that does not load, and on no other account. -/
theorem edit_step (hsrc : SourceOk disk src) {name : Name} {st : TableStore PMap}
    {w : TableStore (TreeMap ρ)} {e : Edit ρ} (hok : StoresOk true disk owned h stores v)
    (hget : SortedMap.get name stores = some st) (hst : StoreSim true disk h st w)
    (hsep : SepFits st.cap st.shape) (hfits : e.Fits st.cap st.shape) :
    ∃ w', Told disk (fun faults => w.edit treeValues faults e) (st.edit (nodeTrees src) h e).1 w' ∧
      StoresStep (st.edit (nodeTrees src) h e).1.isOk disk owned h (st.edit (nodeTrees src) h e).2.2
        (SortedMap.insert name (st.edit (nodeTrees src) h e).2.1 stores) (SortedMap.insert name w' v) := by
  obtain ⟨tm', hedit, htm', -⟩ := TreeMap.edit_spec hsep (hst.whole rfl) hfits
  have hperm := refsOf_perm (erase_perm hok.sorted name)
  rw [hget, refsOf_append, show refsOf (some st).toList = st.rows.refs from List.append_nil _] at hperm
  have hcut := hok.counted.perm (hperm.append_right owned)
  rw [List.append_assoc] at hcut
  have hpost := applyEdit_root hsrc hcut hst.tree hedit
  have hrun : st.edit (nodeTrees src) h e = ((applyEdit src st.cap st.shape h st.rows e).1.map fun _ => (),
      { st with rows := (applyEdit src st.cap st.shape h st.rows e).2.1 },
      (applyEdit src st.cap st.shape h st.rows e).2.2) := rfl
  rw [hrun]
  revert hpost
  generalize applyEdit src st.cap st.shape h st.rows e = r
  intro hpost
  cases hpost with
  | done he hc' hr' =>
    refine ⟨{ w with rows := tm' }, ⟨[none], fun x hx => ?_, fun faults => ?_⟩, ?_⟩
    · cases List.mem_singleton.mp hx
    · rw [hst.cap, hst.shape] at hedit
      simp [TableStore.edit, treeValues, hedit]
    · exact hok.modify (fun _ => rfl) hget (fun _ => ⟨hc', he⟩)
        ⟨hst.nextRowid, hst.cap, hst.shape, hr', fun _ => htm'⟩
  | @failed f h' m' rowGone hs he hc' hr' =>
    refine ⟨{ w with rows := w.rows.leftBy rowGone e },
      ⟨[some ⟨f, rowGone⟩], fun _ _ => hs, fun _ => rfl⟩, ?_⟩
    exact hok.modify (fun hfalse => by cases hfalse) hget (fun _ => ⟨hc', he⟩)
      ⟨hst.nextRowid, hst.cap, hst.shape, hr', fun hfalse => (by cases hfalse)⟩

end Edits

/-- A snapshot without its stores. -/
def Snapshot.catalog {τ : Type} (s : Snapshot κ τ) : Snapshot κ Unit where
  catGen := s.catGen
  dataGen := s.dataGen
  statistics := s.statistics
  tables := s.tables
  types := s.types
  stores := []
  indexStores := []
  sequences := s.sequences
  views := s.views
  collations := s.collations
  defaultCollation := s.defaultCollation

/-- The references that a snapshot holds. -/
def Snapshot.refs (s : Snapshot κ PMap) : List Addr :=
  refsOf (s.stores.map Prod.snd) ++ refsOf (s.indexStores.map Prod.snd)

/-- A snapshot is as a snapshot of values says. -/
structure SnapshotSim (whole : Bool) (disk : Disk ρ) (h : Heap ε ρ) (s : Snapshot κ PMap)
    (v : Snapshot κ (TreeMap ρ)) : Prop where
  catalog : s.catalog = v.catalog
  storesSorted : Sorted s.stores
  stores : Rel (StoreSim whole disk h) s.stores v.stores
  indexSorted : Sorted s.indexStores
  indexStores : Rel (StoreSim whole disk h) s.indexStores v.indexStores

/-- The same, next to the references `owned` by others. -/
structure SnapshotOk (whole : Bool) (disk : Disk ρ) (owned : List Addr) (h : Heap ε ρ)
    (s : Snapshot κ PMap) (v : Snapshot κ (TreeMap ρ)) : Prop where
  counted : Counted Node.kids h (s.refs ++ owned)
  sim : SnapshotSim whole disk h s v

/-- What a write to a snapshot leaves. -/
structure SnapshotStep (whole : Bool) (disk : Disk ρ) (owned : List Addr) (h h' : Heap ε ρ)
    (s : Snapshot κ PMap) (v : Snapshot κ (TreeMap ρ)) : Prop extends SnapshotOk whole disk owned h' s v where
  keeps : Extends Node.kids owned h h'

section Snapshots

variable {whole : Bool} {disk : Disk ρ} {h h' h'' : Heap ε ρ} {owned live : List Addr}
  {s s' : Snapshot κ PMap} {v v' : Snapshot κ (TreeMap ρ)} {src : Option (LeafSource ε ρ)}
  {faults : List (Option (Failure ε))}

theorem SnapshotSim.extends (hs : SnapshotSim whole disk h s v) (he : Extends Node.kids live h h')
    (hl : ∀ a ∈ s.refs, a ∈ live) : SnapshotSim whole disk h' s v :=
  { hs with
    stores := storesSim_extends hs.stores he fun a ha => hl a (List.mem_append_left _ ha)
    indexStores := storesSim_extends hs.indexStores he fun a ha => hl a (List.mem_append_right _ ha) }

variable {whole' : Bool}

theorem SnapshotSim.imp (hs : SnapshotSim whole disk h s v) (hweak : whole' → whole) :
    SnapshotSim whole' disk h s v :=
  { hs with
    stores := hs.stores.mono fun _ _ _ hst => hst.imp hweak
    indexStores := hs.indexStores.mono fun _ _ _ hst => hst.imp hweak }

theorem SnapshotOk.refl (hok : SnapshotOk whole disk owned h s v) :
    SnapshotStep whole disk owned h h s v := ⟨hok, .refl _ _⟩

theorem SnapshotStep.trans (hstep : SnapshotStep whole disk owned h h' s v)
    (hnext : SnapshotStep whole disk owned h' h'' s' v') : SnapshotStep whole disk owned h h'' s' v' :=
  ⟨hnext.toSnapshotOk, hstep.keeps.trans hnext.keeps⟩

theorem SnapshotOk.storesOk (hok : SnapshotOk whole disk owned h s v) :
    StoresOk whole disk (refsOf (s.indexStores.map Prod.snd) ++ owned) h s.stores v.stores where
  counted := by
    rw [← List.append_assoc]
    exact hok.counted
  sorted := hok.sim.storesSorted
  sim := hok.sim.stores

theorem SnapshotOk.indexOk (hok : SnapshotOk whole disk owned h s v) :
    StoresOk whole disk (refsOf (s.stores.map Prod.snd) ++ owned) h s.indexStores v.indexStores where
  counted := by
    rw [← List.append_assoc]
    exact hok.counted.perm (List.perm_append_comm.append_right owned)
  sorted := hok.sim.indexSorted
  sim := hok.sim.indexStores

/-- A write to the tables' stores. -/
theorem SnapshotOk.withStores (hok : SnapshotOk whole disk owned h s v) (hweak : whole' → whole)
    (hstep : StoresStep whole' disk (refsOf (s.indexStores.map Prod.snd) ++ owned) h h' s'.stores v'.stores)
    (hindex : s'.indexStores = s.indexStores) (hindex' : v'.indexStores = v.indexStores)
    (hcat : s'.catalog = v'.catalog) : SnapshotStep whole' disk owned h h' s' v' := by
  refine ⟨⟨?_, ⟨hcat, hstep.sorted, hstep.sim, by rw [hindex]; exact hok.sim.indexSorted, ?_⟩⟩,
    hstep.keeps.mono fun a ha => List.mem_append_right _ ha⟩
  · rw [Snapshot.refs, hindex, List.append_assoc]
    exact hstep.counted
  · rw [hindex, hindex']
    have hkept := storesSim_extends hok.sim.indexStores hstep.keeps fun a ha => List.mem_append_left _ ha
    exact hkept.mono fun _ _ _ hst => hst.imp hweak

/-- A write to the indexes' stores. -/
theorem SnapshotOk.withIndexStores (hok : SnapshotOk whole disk owned h s v) (hweak : whole' → whole)
    (hstep : StoresStep whole' disk (refsOf (s.stores.map Prod.snd) ++ owned) h h' s'.indexStores
      v'.indexStores)
    (hstores : s'.stores = s.stores) (hstores' : v'.stores = v.stores)
    (hcat : s'.catalog = v'.catalog) : SnapshotStep whole' disk owned h h' s' v' := by
  refine ⟨⟨?_, ⟨hcat, by rw [hstores]; exact hok.sim.storesSorted, ?_, hstep.sorted, hstep.sim⟩⟩,
    hstep.keeps.mono fun a ha => List.mem_append_right _ ha⟩
  · rw [Snapshot.refs, hstores]
    have hc := hstep.counted
    rw [← List.append_assoc] at hc
    exact hc.perm (List.perm_append_comm.append_right owned)
  · rw [hstores, hstores']
    have hkept := storesSim_extends hok.sim.stores hstep.keeps fun a ha => List.mem_append_left _ ha
    exact hkept.mono fun _ _ _ hst => hst.imp hweak

/-- A write to the catalog, which is the same whatever the trees are. -/
theorem SnapshotOk.withCatalog (f : ∀ τ, Snapshot κ τ → Snapshot κ τ)
    (hcat : ∀ τ (s : Snapshot κ τ), (f τ s).catalog = (f Unit s.catalog).catalog)
    (hstores : ∀ τ (s : Snapshot κ τ), (f τ s).stores = s.stores)
    (hindex : ∀ τ (s : Snapshot κ τ), (f τ s).indexStores = s.indexStores)
    (hok : SnapshotOk whole disk owned h s v) : SnapshotStep whole disk owned h h (f _ s) (f _ v) := by
  refine ⟨⟨?_, ⟨?_, ?_, ?_, ?_, ?_⟩⟩, .refl _ _⟩
  · rw [Snapshot.refs, hstores, hindex]
    exact hok.counted
  · calc (f _ s).catalog = (f Unit s.catalog).catalog := hcat _ s
      _ = (f Unit v.catalog).catalog := by rw [hok.sim.catalog]
      _ = (f _ v).catalog := (hcat _ v).symm
  · rw [hstores]
    exact hok.sim.storesSorted
  · rw [hstores, hstores]
    exact hok.sim.stores
  · rw [hindex]
    exact hok.sim.indexSorted
  · rw [hindex, hindex]
    exact hok.sim.indexStores

end Snapshots

end Jed.Txn
