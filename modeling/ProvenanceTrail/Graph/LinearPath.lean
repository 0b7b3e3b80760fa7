import ProvenanceTrail.Graph.Reach
/-!
# Linear paths

A linear path is a sequence of steps over pairwise different nodes, the first without an edge. The
search enumerates the paths of a given length whose steps pass a test that knows their position, in the
order of a depth-first search.
-/

namespace ProvenanceTrail.Bundle

variable {ε : Type}

/-- All results for the elements of a list, one after the other, up to the first failure. -/
def collect {α β : Type} (f : α → Except ε (List β)) : List α → Except ε (List β)
  | [] => .ok []
  | a :: rest =>
    match f a with
    | .error err => .error err
    | .ok found =>
      match collect f rest with
      | .error err => .error err
      | .ok more => .ok (found ++ more)

/-- The paths of `remaining` steps from `step` on, behind a path over the nodes `onPath`. A node that
is already on the path is left out untested. -/
def pathsThrough (b : Bundle) (test : Nat → Step b → Except ε Bool) :
    Nat → List b.NodeIx → Step b → Except ε (List (List (Step b)))
  | 0, _, _ => .ok []
  | remaining + 1, onPath, step =>
    if step.node ∈ onPath then .ok []
    else
      match test onPath.length step with
      | .error err => .error err
      | .ok false => .ok []
      | .ok true =>
        if remaining = 0 then .ok [[step]]
        else
          match collect (fun next =>
              pathsThrough b test remaining (step.node :: onPath) (Step.along next.1 next.2))
              (b.stepsFrom step.node) with
          | .error err => .error err
          | .ok paths => .ok (paths.map (step :: ·))

/-- The linear paths of `depth` steps from a node whose steps pass the test. -/
def linearPaths (b : Bundle) (test : Nat → Step b → Except ε Bool) (depth : Nat)
    (start : b.NodeIx) : Except ε (List (List (Step b))) :=
  pathsThrough b test depth [] (Step.start start)

end ProvenanceTrail.Bundle
