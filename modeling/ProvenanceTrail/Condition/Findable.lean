import ProvenanceTrail.Condition.Step
import ProvenanceTrail.Graph.LinearPath
/-!
# Searches within a bundle

A findable is a search of a bundle from its entry node; it gives a list of subgraphs. Its size is the
number of paths for linear paths, and the number of different nodes found for every other search.
-/

namespace ProvenanceTrail

/-- A bundle entered at a node; only an empty bundle has no entry. -/
structure BundleView where
  bundle : Bundle
  start : Option bundle.NodeIx

/-- Nodes and edges found by a search, in the order they were found. -/
structure Subgraph (b : Bundle) where
  nodes : List b.NodeIx
  edges : List b.EdgeIx
deriving DecidableEq

namespace Subgraph

variable {b : Bundle}

/-- A single node. -/
def single (n : b.NodeIx) : Subgraph b := ⟨[n], []⟩

/-- The nodes and edges of a list of steps. -/
def ofSteps (steps : List (Step b)) : Subgraph b :=
  ⟨steps.map Step.node, steps.filterMap Step.edge⟩

/-- The different elements of a list, each at its first place. -/
def firstOccurrences (seen : List b.NodeIx) : List b.NodeIx → List b.NodeIx
  | [] => []
  | n :: rest =>
    if n ∈ seen then firstOccurrences seen rest else n :: firstOccurrences (n :: seen) rest

/-- The different nodes of some subgraphs, in the order they occur. -/
def distinctNodes (found : List (Subgraph b)) : List b.NodeIx :=
  firstOccurrences [] (found.flatMap Subgraph.nodes)

end Subgraph

/-- A search of a bundle. Where a search may start elsewhere, `startsIn` gives the nodes to start
from. -/
inductive Findable where
  /-- the nodes that satisfy a condition, among those reachable from the entry node -/
  | fittingNodes (condition : Option (Condition NodePredicate)) (startsIn : Option Findable)
  /-- the linear paths whose steps satisfy one condition each, from the nodes reachable from the
  entry node -/
  | linearPaths (parts : Option (List (Condition StepPredicate))) (startsIn : Option Findable)
  /-- what a walk of accepted steps reaches, from the entry node -/
  | filtered (filter : Option (Condition StepPredicate)) (startsIn : Option Findable)
  /-- what a derivation path reaches from the entry node -/
  | derivationPath (backward : Option Bool)
  /-- the entry node -/
  | startNode
  /-- all nodes and edges -/
  | wholeGraph

namespace Findable

/-- The nodes reachable from the entry node. -/
def reachable (v : BundleView) : List v.bundle.NodeIx :=
  match v.start with
  | none => []
  | some start => v.bundle.reachable start

/-- The subgraphs of accepted steps, one for each start. -/
def filteredFrom (v : BundleView) (filter : Condition StepPredicate)
    (starts : List v.bundle.NodeIx) : Except ConditionError (List (Subgraph v.bundle)) :=
  Bundle.collect (fun start =>
    (v.bundle.reachSteps (fun s => filter.testStep s) start).map fun steps =>
      [Subgraph.ofSteps steps]) starts

/-- The linear paths from each start. -/
def pathsFrom (v : BundleView) (parts : List (Condition StepPredicate))
    (starts : List v.bundle.NodeIx) : Except ConditionError (List (Subgraph v.bundle)) :=
  let test (position : Nat) (s : Step v.bundle) : Except ConditionError Bool :=
    match parts[position]? with
    | none => .ok false
    | some part => part.testStep s
  Bundle.collect (fun start =>
    (v.bundle.linearPaths test parts.length start).map fun paths =>
      paths.map Subgraph.ofSteps) starts

/-- The nodes among candidates that satisfy a condition, each on its own. -/
def nodesAmong (v : BundleView) (condition : Condition NodePredicate)
    (candidates : List v.bundle.NodeIx) : Except ConditionError (List (Subgraph v.bundle)) :=
  (Bundle.filterOrFail (fun n => condition.testNode (v.bundle.node n)) candidates).map fun nodes =>
    nodes.map Subgraph.single

/-- Runs the search. -/
def find (v : BundleView) : Findable → Except ConditionError (List (Subgraph v.bundle))
  | .fittingNodes none _ => .error (.missing "FittingNodes" "nodeCondition")
  | .fittingNodes (some c) none => nodesAmong v c (reachable v)
  | .fittingNodes (some c) (some inner) => do
    let found ← find v inner
    nodesAmong v c (Subgraph.distinctNodes found)
  | .linearPaths none _ => .error (.missing "FittingLinearSubgraphs" "graphParts")
  | .linearPaths (some parts) none => pathsFrom v parts (reachable v)
  | .linearPaths (some parts) (some inner) => do
    let found ← find v inner
    pathsFrom v parts (Subgraph.distinctNodes found)
  | .filtered none _ => .error (.missing "FilteredSubgraphs" "filter")
  | .filtered (some filter) none => filteredFrom v filter v.start.toList
  | .filtered (some filter) (some inner) => do
    let found ← find v inner
    filteredFrom v filter (Subgraph.distinctNodes found)
  | .derivationPath backward =>
    filteredFrom v (.leaf (.derivationPath backward)) v.start.toList
  | .startNode => .ok (v.start.toList.map Subgraph.single)
  | .wholeGraph => .ok [⟨v.bundle.nodeIndices, v.bundle.edgeIndices⟩]

/-- Whether the size of the search is the number of its paths. -/
def countsPaths : Findable → Bool
  | .linearPaths _ _ => true
  | _ => false

/-- The size of what the search finds. -/
def count (v : BundleView) (f : Findable) : Except ConditionError Nat := do
  let found ← f.find v
  pure (if f.countsPaths then found.length else (Subgraph.distinctNodes found).length)

end Findable

/-- A measure of a bundle. -/
inductive Countable where
  /-- a fixed number -/
  | constant (n : Option Nat)
  /-- the size of a search -/
  | size (f : Findable)

/-- The value of a measure. -/
def Countable.count (v : BundleView) : Countable → Except ConditionError Nat
  | .constant none => .error (.missing "CountConstant" "count")
  | .constant (some n) => .ok n
  | .size f => f.count v

end ProvenanceTrail
