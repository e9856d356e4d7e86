import Jed.Regex.Compile

/-!
# Group numbers

The capturing groups of a parsed pattern are numbered from 1 to the parser's count.
-/

namespace Jed.Regex

mutual
/-- The group numbers of the tree lie between 1 and `g`. -/
def Node.GroupsWithin (g : ℕ) : Node → Prop
  | .concat nodes => AllGroupsWithin g nodes
  | .alt a b => a.GroupsWithin g ∧ b.GroupsWithin g
  | .star sub _ | .plus sub _ | .quest sub _ | .repeat_ sub _ _ _ | .group sub none =>
    sub.GroupsWithin g
  | .group sub (some i) => 1 ≤ i ∧ i ≤ g ∧ sub.GroupsWithin g
  | .empty | .char _ | .any | .class_ _ | .anchorStart | .anchorEnd | .lineStart | .lineEnd => True
def AllGroupsWithin (g : ℕ) : List Node → Prop
  | [] => True
  | n :: ns => n.GroupsWithin g ∧ AllGroupsWithin g ns
end

mutual
theorem Node.GroupsWithin.mono {g g' : ℕ} (hg : g ≤ g') :
    ∀ {n : Node}, n.GroupsWithin g → n.GroupsWithin g'
  | .empty, _ | .char _, _ | .any, _ | .class_ _, _ | .anchorStart, _ | .anchorEnd, _
  | .lineStart, _ | .lineEnd, _ => trivial
  | .concat _, h => AllGroupsWithin.mono hg h
  | .alt _ _, h => ⟨Node.GroupsWithin.mono hg h.1, Node.GroupsWithin.mono hg h.2⟩
  | .star sub _, h => Node.GroupsWithin.mono (n := sub) hg h
  | .plus sub _, h => Node.GroupsWithin.mono (n := sub) hg h
  | .quest sub _, h => Node.GroupsWithin.mono (n := sub) hg h
  | .repeat_ sub _ _ _, h => Node.GroupsWithin.mono (n := sub) hg h
  | .group sub none, h => Node.GroupsWithin.mono (n := sub) hg h
  | .group _ (some _), h => ⟨h.1, Nat.le_trans h.2.1 hg, Node.GroupsWithin.mono hg h.2.2⟩
theorem AllGroupsWithin.mono {g g' : ℕ} (hg : g ≤ g') :
    ∀ {ns : List Node}, AllGroupsWithin g ns → AllGroupsWithin g' ns
  | [], _ => trivial
  | _ :: _, h => ⟨Node.GroupsWithin.mono hg h.1, AllGroupsWithin.mono hg h.2⟩
end

/-- The step adds groups only, and `Q` holds of what it gives and the count after it. -/
def Numbers {α : Type} (g : ℕ) (Q : α → ℕ → Prop) : Parsed α → Prop
  | .ok (v, q) => g ≤ q.ngroups ∧ Q v q.ngroups
  | .error _ => True

namespace Numbers

variable {α β : Type} {g : ℕ} {Q : α → ℕ → Prop} {Q' : β → ℕ → Prop} {r : Parsed α}

theorem bind {f : α × Parser → Parsed β} (h : Numbers g Q r)
    (hf : ∀ a p, g ≤ p.ngroups → Q a p.ngroups → Numbers g Q' (f (a, p))) :
    Numbers g Q' (r.bind f) := by
  cases r with
  | error e => trivial
  | ok v => exact hf v.1 v.2 h.1 h.2

theorem mono {g' : ℕ} (h : Numbers g Q r) (hg : g' ≤ g) : Numbers g' Q r := by
  cases r with
  | error e => trivial
  | ok v => exact ⟨Nat.le_trans hg h.1, h.2⟩

end Numbers

/-- Nothing more is known of what a step gives. -/
def Anything {α : Type} (_ : α) (_ : ℕ) : Prop := True

/-- The step gives a tree with its groups within the count. -/
def Grouped (n : Node) (g : ℕ) : Prop := n.GroupsWithin g

theorem readCount_ngroups (p : Parser) : (readCount p).2.ngroups = p.ngroups := rfl

theorem tryUpper_numbers (start : Parser) (min : ℕ) {p : Parser} (h : p.ngroups = start.ngroups) :
    Numbers start.ngroups Anything (tryUpper start min p) := by
  have hcount := readCount_ngroups p
  rw [tryUpper]
  split
  · exact ⟨Nat.le_of_eq h.symm, trivial⟩
  · split
    next => exact ⟨Nat.le_refl _, trivial⟩
    next hi q hq =>
      rw [hq] at hcount
      split
      · split
        · trivial
        · exact ⟨Nat.le_of_eq (hcount.trans h).symm, trivial⟩
      · exact ⟨Nat.le_refl _, trivial⟩

theorem tryInterval_numbers (p : Parser) : Numbers p.ngroups Anything (tryInterval p) := by
  have hcount := readCount_ngroups p.bump
  rw [tryInterval]
  split
  next => exact ⟨Nat.le_refl _, trivial⟩
  next min q hq =>
    rw [hq] at hcount
    split
    · exact ⟨Nat.le_of_eq hcount.symm, trivial⟩
    · split
      · exact tryUpper_numbers p min hcount
      · exact ⟨Nat.le_refl _, trivial⟩

theorem readQuant_numbers (p : Parser) : Numbers p.ngroups Anything (readQuant p) := by
  have hstay : p.ngroups ≤ p.bump.ngroups ∧ True := ⟨Nat.le_refl _, trivial⟩
  rw [readQuant]
  split
  · exact hstay
  split
  · exact hstay
  split
  · exact hstay
  split
  · exact tryInterval_numbers p
  · exact ⟨Nat.le_refl _, trivial⟩

theorem parseEscape_numbers (p : Parser) : Numbers p.ngroups Grouped (parseEscape p) := by
  rw [parseEscape]
  split
  · trivial
  split
  · exact ⟨Nat.le_refl _, trivial⟩
  split
  · exact ⟨Nat.le_refl _, trivial⟩
  split
  · exact ⟨Nat.le_refl _, trivial⟩
  split
  · exact ⟨Nat.le_refl _, trivial⟩
  split
  · exact ⟨Nat.le_refl _, trivial⟩
  · trivial

theorem classEscape_numbers (p : Parser) : Numbers p.ngroups Anything (classEscape p) := by
  rw [classEscape]
  split
  · trivial
  split
  · exact ⟨Nat.le_refl _, trivial⟩
  split
  · exact ⟨Nat.le_refl _, trivial⟩
  split
  · exact ⟨Nat.le_refl _, trivial⟩
  · trivial

theorem classItem_numbers (p : Parser) : Numbers p.ngroups Anything (classItem p) := by
  rw [classItem]
  split
  · trivial
  · split
    · exact classEscape_numbers p.bump
    · exact ⟨Nat.le_refl _, trivial⟩

theorem classRanges_numbers (p : Parser) : Numbers p.ngroups Anything (classRanges p) := by
  refine (classItem_numbers p).bind fun item q hq _ => ?_
  cases item with
  | set rs => exact ⟨hq, trivial⟩
  | char lo =>
    dsimp only
    split
    · refine ((classItem_numbers q.bump).mono hq).bind fun hi q' hq' _ => ?_
      cases rangeTo lo hi with
      | error e => trivial
      | ok rs => exact ⟨hq', trivial⟩
    · exact ⟨hq, trivial⟩

theorem classLoop_numbers (fuel : ℕ) (first : Bool) (ranges : List (ℕ × ℕ)) (p : Parser) :
    Numbers p.ngroups Anything (classLoop fuel first ranges p) := by
  induction fuel generalizing first ranges p with
  | zero => trivial
  | succ fuel ih =>
    rw [classLoop]
    split
    · trivial
    · split
      · exact ⟨Nat.le_refl _, trivial⟩
      · exact (classRanges_numbers p).bind fun rs q hq _ => (ih false _ q).mono hq

theorem parseClass_numbers (mode : Mode) (p : Parser) :
    Numbers p.ngroups Grouped (parseClass mode p) := by
  refine ((classLoop_numbers _ _ _ _).mono ?_).bind fun ranges q hq _ => ⟨hq, trivial⟩
  split <;> exact Nat.le_refl _

/-- A parser of alternations that numbers its groups. -/
def NumbersAll (alt : Parser → Parsed Node) : Prop := ∀ p, Numbers p.ngroups Grouped (alt p)

variable {alt : Parser → Parsed Node}

theorem parseGroup_numbers (halt : NumbersAll alt) (p : Parser) :
    Numbers p.ngroups Grouped (parseGroup alt p) := by
  rw [parseGroup]
  split
  · split
    · refine (halt p.bump.bump.bump).bind fun sub q hq hsub => ?_
      dsimp only
      split
      · exact ⟨hq, hsub⟩
      · trivial
    · trivial
  · refine ((halt { p.bump with ngroups := p.ngroups + 1 }).mono (Nat.le_refl _)).bind
      (g := p.ngroups + 1) (fun sub q hq hsub => ?_) |>.mono (Nat.le_succ _)
    dsimp only
    split
    · exact ⟨hq, Nat.succ_pos _, hq, hsub⟩
    · trivial

theorem parseAtom_numbers (mode : Mode) (halt : NumbersAll alt) (p : Parser) :
    Numbers p.ngroups Grouped (parseAtom mode alt p) := by
  rw [parseAtom]
  split
  · trivial
  split
  · exact parseGroup_numbers halt p
  split
  · exact parseClass_numbers mode p
  split
  · refine ⟨Nat.le_refl _, ?_⟩
    split <;> trivial
  split
  · refine ⟨Nat.le_refl _, ?_⟩
    split <;> trivial
  split
  · refine ⟨Nat.le_refl _, ?_⟩
    split <;> trivial
  split
  · exact parseEscape_numbers p.bump
  split
  · trivial
  · exact ⟨Nat.le_refl _, trivial⟩

theorem closeQuant_numbers {atom : Node} (quant : Quant) (p : Parser)
    (h : atom.GroupsWithin p.ngroups) :
    Numbers p.ngroups Grouped (closeQuant atom quant p) := by
  have hlazy : (if !decide (p.peek = some '?') then p else p.bump).ngroups = p.ngroups := by
    split <;> rfl
  rw [closeQuant]
  generalize (if !decide (p.peek = some '?') then p else p.bump) = q at hlazy ⊢
  split
  · trivial
  · refine ⟨Nat.le_of_eq hlazy.symm, ?_⟩
    change (quant.node atom _).GroupsWithin q.ngroups
    rw [hlazy]
    cases quant <;> exact h

theorem parseQuant_numbers (mode : Mode) (halt : NumbersAll alt) (p : Parser) :
    Numbers p.ngroups Grouped (parseQuant mode alt p) := by
  refine (parseAtom_numbers mode halt p).bind fun atom q hq hatom => ?_
  refine Numbers.mono (g := q.ngroups) ?_ hq
  refine (readQuant_numbers q).bind fun quant q' hq' _ => ?_
  have hatom' : atom.GroupsWithin q'.ngroups := Node.GroupsWithin.mono hq' hatom
  cases quant with
  | none => exact ⟨hq', hatom'⟩
  | some quant => exact (closeQuant_numbers quant q' hatom').mono hq'

theorem concatLoop_numbers (mode : Mode) (halt : NumbersAll alt) (fuel : ℕ) (p : Parser) :
    Numbers p.ngroups (fun ns g => AllGroupsWithin g ns) (concatLoop mode alt fuel p) := by
  induction fuel generalizing p with
  | zero => trivial
  | succ fuel ih =>
    rw [concatLoop]
    split
    · exact ⟨Nat.le_refl _, trivial⟩
    · refine (parseQuant_numbers mode halt p).bind fun node q hq hnode => ?_
      refine Numbers.mono (g := q.ngroups) ?_ hq
      exact (ih q).bind fun nodes q' hq' hnodes =>
        ⟨hq', Node.GroupsWithin.mono hq' hnode, hnodes⟩

theorem closeConcat_groups {g : ℕ} {ns : List Node} (h : AllGroupsWithin g ns) :
    (closeConcat ns).GroupsWithin g := by
  match ns, h with
  | [], _ => trivial
  | [_], h => exact h.1
  | _ :: _ :: _, h => exact h

theorem parseConcat_numbers (mode : Mode) (halt : NumbersAll alt) (p : Parser) :
    Numbers p.ngroups Grouped (parseConcat mode alt p) :=
  (concatLoop_numbers mode halt _ p).bind fun _ _ hq hnodes => ⟨hq, closeConcat_groups hnodes⟩

theorem parseAlt_numbers (mode : Mode) (fuel : ℕ) : NumbersAll (parseAlt mode fuel) := by
  induction fuel with
  | zero => exact fun _ => trivial
  | succ fuel ih =>
    intro p
    rw [parseAlt]
    refine (parseConcat_numbers mode ih p).bind fun left q hq hleft => ?_
    dsimp only
    split
    · refine Numbers.mono (g := q.ngroups) ?_ hq
      exact (ih q.bump).bind fun right q' hq' hright =>
        ⟨hq', Node.GroupsWithin.mono hq' hleft, hright⟩
    · exact ⟨hq, hleft⟩

/-- The groups of a parsed pattern are numbered within its count. -/
theorem parse_groups {mode : Mode} {pattern : List Char} {root : Node} {ngroups : ℕ}
    (h : parse mode pattern = .ok (root, ngroups)) : root.GroupsWithin ngroups := by
  have hnum := parseAlt_numbers mode (pattern.length + 1) ⟨pattern, 0⟩
  rw [parse] at h
  cases hp : parseAlt mode (pattern.length + 1) ⟨pattern, 0⟩ with
  | error e =>
    rw [hp] at h
    cases h
  | ok v =>
    rw [hp] at h hnum
    change (if v.2.rest = [] then Except.ok (v.1, v.2.ngroups) else _) = _ at h
    split at h
    · cases h
      exact hnum.2
    · cases h

end Jed.Regex
