import ProvenanceTrail.Graph.Bundle
/-!
# Breadth-first reachability

A walk follows edges in both directions. Starting from one node, the search reaches every node that a
walk of accepted steps leads to, each once, nearest first. The start is never tested; a node whose step
over one edge is refused may still be reached over another.
-/

namespace ProvenanceTrail

/-- A step of a walk: the node reached, and the edge it was reached over. The start has no edge. -/
structure Step (b : Bundle) where
  edge : Option b.EdgeIx
  node : b.NodeIx
deriving DecidableEq

namespace Step

/-- The start of a walk. -/
def start {b : Bundle} (n : b.NodeIx) : Step b := ⟨none, n⟩

/-- A step along an edge. -/
def along {b : Bundle} (e : b.EdgeIx) (n : b.NodeIx) : Step b := ⟨some e, n⟩

end Step

namespace Bundle

variable {ε : Type}

/-- Tries the edges at a node in order: those that lead to a new node and pass the filter are the
steps reached. The first failure of the filter ends the search. -/
def newSteps (b : Bundle) (filter : Step b → Except ε Bool) (seen : List b.NodeIx) :
    List (b.EdgeIx × b.NodeIx) → Except ε (List (Step b))
  | [] => .ok []
  | (e, n) :: rest =>
    if n ∈ seen then newSteps b filter seen rest
    else
      match filter (Step.along e n) with
      | .error err => .error err
      | .ok false => newSteps b filter seen rest
      | .ok true =>
        match newSteps b filter (n :: seen) rest with
        | .error err => .error err
        | .ok steps => .ok (Step.along e n :: steps)

/-- Serves the queue of reached steps; each served step adds the new steps at its node to the end. At
most `fuel` steps are served. -/
def serve (b : Bundle) (filter : Step b → Except ε Bool) :
    Nat → List b.NodeIx → List (Step b) → Except ε (List (Step b))
  | 0, _, _ => .ok []
  | _ + 1, _, [] => .ok []
  | fuel + 1, seen, step :: queue =>
    match newSteps b filter seen (b.stepsFrom step.node) with
    | .error err => .error err
    | .ok steps =>
      match serve b filter fuel (steps.map Step.node ++ seen) (queue ++ steps) with
      | .error err => .error err
      | .ok rest => .ok (step :: rest)

/-- The steps by which the search from a node reaches each node, in the order it reaches them. No node
is served twice, so as many steps as there are nodes suffice. -/
def reachSteps (b : Bundle) (filter : Step b → Except ε Bool) (start : b.NodeIx) :
    Except ε (List (Step b)) :=
  serve b filter b.nodes.size [start] [Step.start start]

/-- The nodes that the search from a node reaches by accepted steps, nearest first. -/
def reachFiltered (b : Bundle) (filter : Step b → Except ε Bool) (start : b.NodeIx) :
    Except ε (List b.NodeIx) :=
  (b.reachSteps filter start).map fun steps => steps.map Step.node

/-- The nodes connected to a node, nearest first. -/
def reachable (b : Bundle) (start : b.NodeIx) : List b.NodeIx :=
  match b.reachFiltered (fun _ => (.ok true : Except Empty Bool)) start with
  | .ok nodes => nodes

/-- The elements that pass a test, up to the first failure of the test. -/
def filterOrFail {α : Type} (test : α → Except ε Bool) : List α → Except ε (List α)
  | [] => .ok []
  | a :: rest =>
    match test a with
    | .error err => .error err
    | .ok passed =>
      match filterOrFail test rest with
      | .error err => .error err
      | .ok kept => .ok (if passed then a :: kept else kept)

/-- The nodes connected to a node that pass a test, nearest first. -/
def findReachable (b : Bundle) (test : b.NodeIx → Except ε Bool) (start : b.NodeIx) :
    Except ε (List b.NodeIx) :=
  filterOrFail test (b.reachable start)

end Bundle

end ProvenanceTrail
