import ProvenanceTrail.Condition.Node
import ProvenanceTrail.Graph.Reach
/-!
# Predicates of edges and steps

A step of a walk is tested by its edge, by the node it reaches and by which end of the edge that is.
The start of a walk has no edge and fails every test of one.
-/

namespace ProvenanceTrail

/-- A predicate of an edge. -/
inductive EdgePredicate where
  /-- the edge carries the relation -/
  | isRelation (relation : Option RelationKind)
  /-- the edge does not carry the relation -/
  | isNotRelation (relation : Option RelationKind)

namespace EdgePredicate

/-- Evaluates the predicate. -/
def eval {size : Nat} (e : Edge size) : EdgePredicate → Except ConditionError Bool
  | .isRelation none => .error (.missing "IsRelation" "relation")
  | .isRelation (some k) => .ok (e.hasRelation k)
  | .isNotRelation none => .error (.missing "IsNotRelation" "relation")
  | .isNotRelation (some k) => .ok (!e.hasRelation k)

end EdgePredicate

/-- Evaluates a condition at an edge. -/
def Condition.testEdge {size : Nat} (e : Edge size) (c : Condition EdgePredicate) :
    Except ConditionError Bool :=
  c.test (EdgePredicate.eval e)

/-- A predicate of a step. -/
inductive StepPredicate where
  /-- those of the three checks that are given hold: of the edge, of the node reached, and of whether
  that node is the effect -/
  | edgeToNode (edge : Option (Condition EdgePredicate)) (node : Option (Condition NodePredicate))
      (nodeIsEffect : Option Bool)
  /-- a derivation in the direction, or in any when none is given, or a specialization either way -/
  | derivationPath (backward : Option Bool)

namespace StepPredicate

variable {b : Bundle}

/-- Evaluates the three checks one after the other. -/
def evalEdgeToNode (s : Step b) (edge : Option (Condition EdgePredicate))
    (node : Option (Condition NodePredicate)) (nodeIsEffect : Option Bool) :
    Except ConditionError Bool := do
  let edgeHolds ← match edge, s.edge with
    | none, _ => pure true
    | some _, none => pure false
    | some c, some e => c.testEdge (b.edge e)
  if !edgeHolds then return false
  let nodeHolds ← match node with
    | none => pure true
    | some c => c.testNode (b.node s.node)
  if !nodeHolds then return false
  return match nodeIsEffect, s.edge with
    | none, _ => true
    | some _, none => false
    | some expected, some e => ((b.edge e).effect == s.node) == expected

/-- The condition that a derivation path asks of each of its steps. -/
def derivationStep (backward : Option Bool) : Condition StepPredicate :=
  let relation (k : RelationKind) : Option (Condition EdgePredicate) :=
    some (.leaf (.isRelation (some k)))
  .anyTrue
    [.leaf (.edgeToNode (relation .derivation) none (backward.map (!·))),
      .leaf (.edgeToNode (relation .specialization) none none)]

/-- Evaluates a predicate that is not a derivation path. -/
def evalPlain (s : Step b) : StepPredicate → Except ConditionError Bool
  | .edgeToNode edge node nodeIsEffect => evalEdgeToNode s edge node nodeIsEffect
  | .derivationPath _ => .ok false

/-- Evaluates the predicate. -/
def eval (s : Step b) : StepPredicate → Except ConditionError Bool
  | .edgeToNode edge node nodeIsEffect => evalEdgeToNode s edge node nodeIsEffect
  | .derivationPath backward => (derivationStep backward).test (evalPlain s)

end StepPredicate

/-- Evaluates a condition at a step. -/
def Condition.testStep {b : Bundle} (s : Step b) (c : Condition StepPredicate) :
    Except ConditionError Bool :=
  c.test (StepPredicate.eval s)

end ProvenanceTrail
