import ProvenanceTrail.Condition.Error
/-!
# Conditions

A condition is a tree of logical connectives over leaf predicates. An operand may be missing; that is
reported when the condition is evaluated, not before. A conjunction of nothing is an error, a
disjunction of nothing is true; a missing list counts as an empty one.

Operands are evaluated from left to right, and only as far as needed.
-/

namespace ProvenanceTrail

/-- A tree of connectives over predicates of type `P`. -/
inductive Condition (P : Type) where
  | leaf (predicate : P)
  | not (operand : Option (Condition P))
  | allTrue (operands : List (Condition P))
  | anyTrue (operands : List (Condition P))
  | either (first second : Option (Condition P))
  | implication (premise consequence : Option (Condition P))

namespace Condition

variable {P : Type}

mutual
/-- Evaluates a condition, given how its leaves are evaluated. -/
def test (eval : P → Except ConditionError Bool) : Condition P → Except ConditionError Bool
  | .leaf predicate => eval predicate
  | .not none => .error (.missing "Negation" "condition")
  | .not (some c) => do
    let value ← c.test eval
    pure (!value)
  | .allTrue [] => .error (.configuration .emptyConjunction)
  | .allTrue (c :: rest) => do
    if ← c.test eval then testAll eval rest else pure false
  | .anyTrue [] => .ok true
  | .anyTrue (c :: rest) => do
    if ← c.test eval then pure true else testAny eval rest
  | .either none _ => .error (.missing "Either" "first")
  | .either (some _) none => .error (.missing "Either" "second")
  | .either (some a) (some b) => do
    let first ← a.test eval
    let second ← b.test eval
    pure (first != second)
  | .implication none _ => .error (.missing "Implication" "premise")
  | .implication (some _) none => .error (.missing "Implication" "consequence")
  | .implication (some p) (some c) => do
    if ← p.test eval then c.test eval else pure true
termination_by structural c => c

/-- Whether every one of the remaining members of a conjunction holds. -/
def testAll (eval : P → Except ConditionError Bool) :
    List (Condition P) → Except ConditionError Bool
  | [] => .ok true
  | c :: rest => do
    if ← c.test eval then testAll eval rest else pure false
termination_by structural cs => cs

/-- Whether one of the remaining members of a disjunction holds. -/
def testAny (eval : P → Except ConditionError Bool) :
    List (Condition P) → Except ConditionError Bool
  | [] => .ok false
  | c :: rest => do
    if ← c.test eval then pure true else testAny eval rest
termination_by structural cs => cs
end

end Condition

end ProvenanceTrail
