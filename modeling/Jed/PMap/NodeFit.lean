import Jed.PMap.Snapshots

/-!
# What every node looks like

The node-fit invariant in the terms of the format: payloads within the page, one child more than
separators, ascending separators and keys, and every key between the separators around its child.
It is read off the two invariants the map keeps, and so holds of every handle after every run.
-/

namespace Jed.PMap

open KeyChain Arc

variable {ε ρ : Type} {cap : Cap} {shape : LeafShape}

/-- The keys a subtree holds: those of its records, and its separators. -/
def allKeys : (n : Nat) → Tree ρ n → List Bytes
  | 0, (es : Leaf ρ) => es.map Prod.fst
  | n + 1, (t : Inner (Tree ρ n)) => t.keys ++ t.children.flatMap (allKeys n)

/-- Every node fits its page and is laid out as the format says. All leaves of a `Tree ρ n` are `n`
    levels down. -/
def NodesOk (cap : Cap) (shape : LeafShape) : (n : Nat) → Tree ρ n → Prop
  | 0, (es : Leaf ρ) => leafPayload (es.map (·.2.weight)) shape ≤ cap.c ∧
      (es.map Prod.fst).Pairwise (· < ·)
  | n + 1, (t : Inner (Tree ρ n)) => interiorPayload cap t.keys ≤ cap.c ∧
      t.children.length = t.keys.length + 1 ∧ t.keys.Pairwise (· < ·) ∧
      ∀ i c, t.children[i]? = some c → NodesOk cap shape n c ∧
        ∀ k ∈ allKeys n c, InRange (if i = 0 then none else t.keys[i - 1]?) t.keys[i]? k

/-- Keys of an ordered tree, separators included, stay within its bounds. -/
theorem Ordered.allKeys_inRange {n : Nat} : ∀ {lo hi : Option Bytes} {t : Tree ρ n},
    Ordered n lo hi t → ∀ k ∈ allKeys n t, InRange lo hi k := by
  induction n with
  | zero =>
    intro lo hi t h k hk
    obtain ⟨e, he, rfl⟩ := List.mem_map.mp hk
    exact h.2 e he
  | succ n ih =>
    intro lo hi t h k hk
    have hsep : ∀ s ∈ t.keys, Below lo (some s) ∧ Below (some s) hi := Chain.sep_inside h
    rcases List.mem_append.mp hk with hk | hk
    · exact ⟨fun a ha => le_of_lt ((hsep k hk).1 a ha k rfl), fun b hb => (hsep k hk).2 k rfl b hb⟩
    · obtain ⟨c, hc, hkc⟩ := List.mem_flatMap.mp hk
      obtain ⟨i, hi⟩ := List.mem_iff_getElem?.mp hc
      have hr := ih (Chain.child h hi) k hkc
      refine ⟨fun a ha => ?_, fun b hb => ?_⟩
      · cases i with
        | zero => exact hr.above a ha
        | succ i =>
          cases hs : t.keys[i]? with
          | none =>
            rw [List.getElem?_eq_none_iff] at hs
            have hlt := (List.getElem?_eq_some_iff.mp hi).1
            have hlen : t.children.length = t.keys.length + 1 := Chain.length h
            omega
          | some s =>
            have hmem := List.mem_of_getElem? hs
            exact le_of_lt (((hsep s hmem).1 a ha s rfl).trans_le (hr.above s hs))
      · cases hs : t.keys[i]? with
        | none => exact hr.below b (by rw [hs]; exact hb)
        | some s =>
          have hmem := List.mem_of_getElem? hs
          exact (hr.below s (by rw [hs]; rfl)).trans ((hsep s hmem).2 s rfl b hb)

/-- The order and the size invariants together say what every node looks like. -/
theorem NodesOk.of_invariants {n : Nat} : ∀ {lo hi : Option Bytes} {t : Tree ρ n},
    Ordered n lo hi t → Fits cap shape n t → NodesOk cap shape n t := by
  induction n with
  | zero => exact fun hord hfit => ⟨hfit.1, List.pairwise_map.mpr hord.1⟩
  | succ n ih =>
    intro lo hi t hord hfit
    obtain ⟨hpay, hlen, -, hkids⟩ := hfit
    refine ⟨hpay, hlen, Chain.seps_sorted hord, fun i c hc => ?_⟩
    have hchild := Chain.child hord hc
    refine ⟨ih hchild (hkids c (List.mem_of_getElem? hc)), fun k hk => ?_⟩
    have hr := hchild.allKeys_inRange k hk
    refine ⟨fun a ha => hr.above a ?_, fun b hb => hr.below b ?_⟩
    · cases i with
      | zero => cases ha
      | succ i => exact ha
    · rw [hb]
      rfl

/-- A live handle's tree is well formed. -/
theorem HandleOk.nodesOk {h : Heap ε ρ} {m : PMap} {edits : Option (List (Edit ρ))}
    (hh : HandleOk cap shape h (some m) edits) {root : Addr} (hroot : m.root = some root) :
    ∃ n t, Rep noDisk h n root t ∧ NodesOk cap shape n t := by
  rcases hh with _ | ⟨tm, hr, hok, -⟩
  obtain ⟨-, hrep⟩ := hr
  obtain ⟨mroot, mcount⟩ := m
  obtain ⟨troot, tcount⟩ := tm
  cases hrep with
  | empty => cases hroot
  | root hrep =>
    obtain rfl := Option.some.inj hroot
    obtain ⟨-, hord, hfit⟩ := hok.tree _ _ rfl
    exact ⟨_, _, hrep, .of_invariants hord hfit⟩

/-- After every run of inserts, overwrites and removes, over any number of snapshots, every node of
    every live map fits its page and is well formed, all leaves are at one depth, and no call
    panicked: the splits the insert path expects were always there. -/
theorem every_node_fits (src : Option (LeafSource ε ρ)) (cap : Cap) (shape : LeafShape)
    (hsep : SepFits cap shape) (ops : List (Op ρ)) (hops : ∀ op ∈ ops, op.Fits cap shape) :
    let run := (Session.new : Session ε ρ).run src cap shape ops
    (∀ res ∈ run.1, ∃ old, res = .ok old) ∧
      ∀ (i : Nat) (m : PMap) (root : Addr), run.2.handles[i]? = some (some m) →
        m.root = some root → ∃ n t, Rep noDisk run.2.heap n root t ∧ NodesOk cap shape n t := by
  intro run
  obtain ⟨hres, hok⟩ := Session.run_spec src hsep Session.new_ok hops
  refine ⟨fun res hmem => ?_, fun i m root hm hroot => ?_⟩
  · obtain ⟨old, -, rfl⟩ := List.mem_map.mp (hres ▸ hmem)
    exact ⟨old, rfl⟩
  · rcases slot_cases hok.handles i with ⟨h1, -⟩ | ⟨m', edits, h1, -, hh⟩
    · rw [show run.2.handles[i]? = _ from hm] at h1
      cases h1
    · obtain rfl : m' = m := Option.some.inj (Option.some.inj (h1.symm.trans hm))
      exact hh.nodesOk hroot

/-- Three records that split their leaf. -/
def splittingInserts : List (Op Nat) :=
  [.edit 0 (.insert [1] ⟨10, 100⟩), .edit 0 (.insert [2] ⟨20, 100⟩), .edit 0 (.insert [3] ⟨30, 100⟩)]

theorem every_node_fits_split : ∃ n t,
    Rep noDisk ((Session.new : Session Unit Nat).run none (Cap.plain 256) ⟨0, 0⟩ splittingInserts).2.heap
      n 3 t ∧ NodesOk (Cap.plain 256) ⟨0, 0⟩ n t :=
  (every_node_fits (none : Option (LeafSource Unit Nat)) (Cap.plain 256) ⟨0, 0⟩
    (Cap.WellFormed.sepFits (.inl rfl) _) splittingInserts (by decide)).2 0 ⟨some 3, some 3⟩ 3
    (by decide +kernel) rfl

/-- Three records under keys of 24 bytes. -/
def wideSeparators : List (Op Nat) :=
  [1, 2, 3].map (fun k => .edit 0 (.insert (k :: List.replicate 23 0) ⟨0, 24⟩))

/-- At 60 bytes of tagged capacity the record cap admits a separator of 24 bytes, and the root that
    holds it between two tagged pointers serializes to 68. -/
theorem tiny_tagged_root_overflows :
    (∀ op ∈ wideSeparators, op.Fits ⟨60, TAG_LEN⟩ ⟨0, 0⟩) ∧
      let run := (Session.new : Session Unit Nat).run none ⟨60, TAG_LEN⟩ ⟨0, 0⟩ wideSeparators
      run.2.handles = [some ⟨some 3, some 3⟩] ∧
        (run.2.heap.node? 3).map (fun nd => nd.payload ⟨60, TAG_LEN⟩ ⟨0, 0⟩) = some 68 := by
  refine ⟨by decide, ?_⟩
  decide +kernel

end Jed.PMap
