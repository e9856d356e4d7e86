import Mathlib.Data.Finset.Sort
import Jed.Lib.KeyCodes
import Jed.Gin.Postings
import Jed.PMap.Traversals

/-!
# Gathering postings

The candidates of a query tree over the entry tree of a GIN index (`access_path.rs:470-714`): a posting
list is read whole, and an intersection probes the candidates of one list at the runs of the others, by
groups whose probe keys fall in one leaf.
-/

namespace Jed.Gin

open PMap Window

/-- `GinTree` (`gin_jsonpath.rs:14-22`). -/
inductive GinTree where
  | term (term : Bytes)
  | and (leaves : List Bytes) (rest : List GinTree)
  | or (leaves : List Bytes) (rest : List GinTree)

/-- The terms and the children that a node of a kind takes over from one of its nodes. -/
def GinTree.splice (conj : Bool) : GinTree → List Bytes × List GinTree
  | .term t => ([t], [])
  | .and leaves rest => if conj then (leaves, rest) else ([], [.and leaves rest])
  | .or leaves rest => if conj then ([], [.or leaves rest]) else (leaves, rest)

/-- `GinTree::normalize` (`gin_jsonpath.rs:60-81`). -/
def GinTree.normalize (conj : Bool) (nodes : List GinTree) : GinTree :=
  let leaves := (nodes.flatMap fun node => (node.splice conj).1).toFinset.sort
  let rest := nodes.flatMap fun node => (node.splice conj).2
  match leaves, rest with
  | [t], [] => .term t
  | [], [child] => child
  | leaves, rest => if conj then .and leaves rest else .or leaves rest

/-- `Node` (`gin_jsonpath.rs:95-100`): what is extracted of a query, before it is normalized. -/
inductive Node where
  | entry (term : Bytes)
  | and (children : List Node)
  | or (children : List Node)

/-- `Node::into_tree` (`gin_jsonpath.rs:103-113`). -/
def Node.intoTree : Node → GinTree
  | .entry t => .term t
  | .and children => .normalize true (children.map Node.intoTree)
  | .or children => .normalize false (children.map Node.intoTree)

/-- The runs that the entry tree holds. -/
def entryStore (istore : TreeMap Unit) : EntryStore := istore.contents.map fun e => (e.1, ())

/-- `PMap::height`. -/
def height (istore : TreeMap Unit) : Nat :=
  match istore.root with
  | none => 0
  | some ⟨n, _⟩ => n + 1

/-- `GinGather`: the units of one gather. -/
structure GinGather where
  pages : Nat
  entries : Nat

/-- The storage keys of runs, in order. -/
def decodeRuns (termLen : Nat) : List Bytes → Except Fault (List Bytes)
  | [] => .ok []
  | run :: runs => do
    let keys ← decodeRun termLen run
    let rest ← decodeRuns termLen runs
    return keys ++ rest

/-- `GinGather::posting_list` (`access_path.rs:544-546`), by `read`. -/
def postingList (istore : TreeMap Unit) (term : Bytes) (g : GinGather) :
    Except Fault (GinGather × List Bytes) := do
  let keys ← decodeRuns term.length ((entryStore istore).scan (termBound term))
  return (⟨g.pages + istore.nodesIn (termBound term), g.entries + keys.length⟩, keys)

/-- A scan from one key to another, both of them in it. -/
def span (lo hi : Bytes) : KeyBound := ⟨some lo, true, some hi, true⟩

/-- `keys.binary_search(c).is_ok()`. -/
def holdsKey (keys : List Bytes) (c : Bytes) : Bool :=
  match searchKeys keys c with
  | .ok _ => true
  | .error _ => false

/-- `GIN_GROUP_LOOKUPS`. -/
def GIN_GROUP_LOOKUPS : Nat := 4

/-- The loop of `probe_group_lookups`: `last` is the run of the candidate before. -/
def probeLookups (s : EntryStore) (term : Bytes) :
    List Bytes → Option Bytes → Except Fault (Option Bytes × List Bytes)
  | [], last => .ok (last, [])
  | c :: group, last =>
    match runAtOrAfter s term c with
    | none => .ok (last, [])
    | some run => do
      let keys ← decodeRun term.length run
      let (last, found) ← probeLookups s term group (some run)
      return (last, if holdsKey keys c then c :: found else found)

attribute [grind =] probeLookups

/-- `probe_group_lookups` (`access_path.rs:652-677`). -/
def probeGroupLookups (istore : TreeMap Unit) (term : Bytes) (group : List Bytes) :
    Except Fault (Option Bytes × List Bytes) := probeLookups (entryStore istore) term group none

/-- The bound of a term's runs from a probe key on. -/
def boundFrom (term key : Bytes) : KeyBound := { termBound term with lo := some key }

/-- The runs of a scan through the first one past `last`, and whether there is one. -/
def runsThrough (last : Bytes) : List Bytes → List Bytes × Bool
  | [] => ([], false)
  | run :: runs =>
    if last < run then ([run], true)
    else
      let (runs, past) := runsThrough last runs
      (run :: runs, past)

attribute [grind =] runsThrough

/-- The candidates that the runs hold. -/
def probeRuns (term : Bytes) (runs : List Bytes) : List Bytes → Except Fault (List Bytes)
  | [] => .ok []
  | c :: group =>
    match runs[partitionPoint (fun r => r < term ++ c) runs]? with
    | none => .ok []
    | some run => do
      let keys ← decodeRun term.length run
      let found ← probeRuns term runs group
      return if holdsKey keys c then c :: found else found

attribute [grind =] probeRuns

/-- `probe_group_scan` (`access_path.rs:681-714`). -/
def probeGroupScan (istore : TreeMap Unit) (term : Bytes) (group : List Bytes) (first last : Bytes) :
    Except Fault (Option Bytes × List Bytes) := do
  let (runs, past) := runsThrough last ((entryStore istore).scan (boundFrom term first))
  let found ← probeRuns term runs group
  return (if past then runs.getLast? else none, found)

/-- The candidates whose probe keys are in one leaf with `first`, and those from the next one on. -/
def leafGroup (istore : TreeMap Unit) (term first : Bytes) : List Bytes → List Bytes × List Bytes
  | [] => ([], [])
  | c :: cs =>
    if istore.nodesIn (span first (term ++ c)) = height istore then
      let (group, rest) := leafGroup istore term first cs
      (c :: group, rest)
    else ([], c :: cs)

theorem leafGroup_append (istore : TreeMap Unit) (term first : Bytes) (cs : List Bytes) :
    (leafGroup istore term first cs).1 ++ (leafGroup istore term first cs).2 = cs := by
  induction cs with
  | nil => rfl
  | cons c cs ih =>
    rw [leafGroup]
    split
    · exact congrArg (c :: ·) ih
    · rfl

/-- The survivors of one leaf group, and what they charge (`access_path.rs:616-637`). -/
def probeGroup (istore : TreeMap Unit) (term c : Bytes) (more : List Bytes) (g : GinGather) :
    Except Fault (GinGather × List Bytes) := do
  let first := term ++ c
  let group := c :: more
  let last := term ++ lastKey group
  let (stop, found) ←
    if group.length ≤ GIN_GROUP_LOOKUPS then probeGroupLookups istore term group
    else probeGroupScan istore term group first last
  return (⟨g.pages + istore.nodesIn (span first (stop.getD last)), g.entries + group.length⟩, found)

/-- The candidates that a term holds too, by leaf groups (`access_path.rs:607-640`). -/
def probeTerm (istore : TreeMap Unit) (term : Bytes) (cs : List Bytes) (g : GinGather) :
    Except Fault (GinGather × List Bytes) :=
  match cs with
  | [] => .ok (g, [])
  | c :: cs => do
    let (g, found) ← probeGroup istore term c (leafGroup istore term (term ++ c) cs).1 g
    let (g, survivors) ← probeTerm istore term (leafGroup istore term (term ++ c) cs).2 g
    return (g, found ++ survivors)
termination_by cs.length
decreasing_by
  have := congrArg List.length (leafGroup_append istore term (term ++ c) cs)
  rw [List.length_append] at this
  rw [List.length_cons]
  omega

/-- What a term is ordered by, and the runs of a term that was peeked. -/
structure TermRank where
  span : Nat
  runs : Nat
  bytes : Nat
  term : Bytes
  peeked : Option (List Bytes)

def USIZE_MAX : Nat := 2 ^ 64 - 1

/-- A term's rank, and the pages that it took to find (`access_path.rs:573-586`). -/
def rankTerm (istore : TreeMap Unit) (term : Bytes) : TermRank × Nat :=
  let bound := termBound term
  let overlap := istore.nodesIn bound
  if overlap ≤ height istore then
    let runs := (entryStore istore).scan bound
    (⟨overlap, runs.length, (runs.map List.length).sum, term, some runs⟩, overlap)
  else (⟨overlap, USIZE_MAX, USIZE_MAX, term, none⟩, 0)

/-- `(a.0, a.1, a.2, &a.3).cmp(&(b.0, b.1, b.2, &b.3))` is not greater. -/
def TermRank.le (a b : TermRank) : Bool :=
  ((compare a.span b.span).then <| (compare a.runs b.runs).then <|
    (compare a.bytes b.bytes).then (KeyCodes.lexCompare a.term b.term)) != .gt

/-- The candidates of the first list (`access_path.rs:590-600`). -/
def drive (istore : TreeMap Unit) (driver : TermRank) (g : GinGather) :
    Except Fault (GinGather × List Bytes) :=
  match driver.peeked with
  | some runs => do
    let keys ← decodeRuns driver.term.length runs
    return (⟨g.pages, g.entries + keys.length⟩, keys)
  | none => postingList istore driver.term g

/-- The other terms in order, while there are candidates. -/
def probeTerms (istore : TreeMap Unit) :
    List Bytes → List Bytes → GinGather → Except Fault (GinGather × List Bytes)
  | [], candidates, g => .ok (g, candidates)
  | _ :: _, [], g => .ok (g, [])
  | term :: terms, candidates, g => do
    let (g, survivors) ← probeTerm istore term candidates g
    probeTerms istore terms survivors g

/-- `GinGather::intersect` (`access_path.rs:563-642`). -/
def intersect (istore : TreeMap Unit) (terms : List Bytes) (g : GinGather) :
    Except Fault (GinGather × List Bytes) :=
  match terms with
  | [] => .ok (g, [])
  | [term] => postingList istore term g
  | terms =>
    let ranks := terms.map (rankTerm istore)
    let g := { g with pages := g.pages + (ranks.map Prod.snd).sum }
    match (ranks.map Prod.fst).mergeSort TermRank.le with
    | [] => .error .panic
    | driver :: ordered => do
      let (g, candidates) ← drive istore driver g
      probeTerms istore (ordered.map TermRank.term) candidates g

/-- The union of the posting lists of terms with keys found before. -/
def unionLeaves (istore : TreeMap Unit) :
    List Bytes → Finset Bytes → GinGather → Except Fault (GinGather × Finset Bytes)
  | [], union, g => .ok (g, union)
  | term :: terms, union, g => do
    let (g, keys) ← postingList istore term g
    unionLeaves istore terms (union ∪ keys.toFinset) g

mutual

/-- `GinGather::eval` (`access_path.rs:508-541`). -/
def eval (istore : TreeMap Unit) : GinTree → GinGather → Except Fault (GinGather × List Bytes)
  | .term term, g => postingList istore term g
  | .or leaves rest, g => do
    let (g, union) ← unionLeaves istore leaves ∅ g
    let (g, union) ← evalUnion istore rest union g
    return (g, union.sort)
  | .and [] [], g => .ok (g, [])
  | .and [] (first :: rest), g => do
    let (g, candidates) ← eval istore first g
    evalRetain istore rest candidates g
  | .and (leaf :: leaves) rest, g => do
    let (g, candidates) ← intersect istore (leaf :: leaves) g
    evalRetain istore rest candidates g

/-- The union of the children's candidates with keys found before. -/
def evalUnion (istore : TreeMap Unit) :
    List GinTree → Finset Bytes → GinGather → Except Fault (GinGather × Finset Bytes)
  | [], union, g => .ok (g, union)
  | child :: rest, union, g => do
    let (g, keys) ← eval istore child g
    evalUnion istore rest (union ∪ keys.toFinset) g

/-- The candidates that are each child's too, while there are any. -/
def evalRetain (istore : TreeMap Unit) :
    List GinTree → List Bytes → GinGather → Except Fault (GinGather × List Bytes)
  | [], candidates, g => .ok (g, candidates)
  | _ :: _, [], g => .ok (g, [])
  | child :: rest, candidates, g => do
    let (g, keys) ← eval istore child g
    evalRetain istore rest (candidates.filter fun key => decide (key ∈ keys)) g

end

end Jed.Gin
