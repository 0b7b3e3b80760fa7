import ProvenanceTrail.Condition.Findable
/-!
# Predicates of bundles

A bundle can be asked whether all its nodes satisfy a condition, and how two measures of it compare.
-/

namespace ProvenanceTrail

/-- A comparison of two numbers. -/
inductive Comparison where
  | equal
  | less
  | lessOrEqual
  | greater
  | greaterOrEqual
deriving DecidableEq, Repr

namespace Comparison

/-- The short spelling, which is the one that is written. -/
def short : Comparison → String
  | .equal => "EQ"
  | .less => "LT"
  | .lessOrEqual => "LE"
  | .greater => "GT"
  | .greaterOrEqual => "GE"

/-- Short and long spellings. -/
def spellings : List (String × Comparison) :=
  [("EQ", .equal), ("EQUALS", .equal), ("LT", .less), ("LESS_THAN", .less),
    ("LE", .lessOrEqual), ("LESS_THAN_OR_EQUALS", .lessOrEqual),
    ("GT", .greater), ("GREATER_THAN", .greater),
    ("GE", .greaterOrEqual), ("GREATER_THAN_OR_EQUALS", .greaterOrEqual)]

/-- The comparison with a spelling. -/
def ofWord? (s : String) : Option Comparison := Text.meaning? spellings s

/-- Reads the JSON form. -/
def ofJson? : Json → Option Comparison := Json.word? ofWord?

/-- Compares two numbers. -/
def apply : Comparison → Nat → Nat → Bool
  | .equal, a, b => a == b
  | .less, a, b => a < b
  | .lessOrEqual, a, b => a ≤ b
  | .greater, a, b => b < a
  | .greaterOrEqual, a, b => b ≤ a

end Comparison

/-- A predicate of a bundle entered at a node. -/
inductive BundlePredicate where
  /-- every node satisfies the condition -/
  | allNodes (condition : Option (Condition NodePredicate))
  /-- two measures compare as said -/
  | countComparison (first : Option Countable) (comparison : Option Comparison)
      (second : Option Countable)

namespace BundlePredicate

/-- Whether every node of a list satisfies a condition, up to the first that does not. -/
def allSatisfy (c : Condition NodePredicate) : List Node → Except ConditionError Bool
  | [] => .ok true
  | n :: rest => do
    if ← c.testNode n then allSatisfy c rest else pure false

/-- Evaluates the predicate. -/
def eval (v : BundleView) : BundlePredicate → Except ConditionError Bool
  | .allNodes none => .error (.missing "AllNodes" "condition")
  | .allNodes (some c) => allSatisfy c v.bundle.nodes.toList
  | .countComparison none _ _ => .error (.missing "CountComparisonCondition" "first")
  | .countComparison (some _) none _ =>
    .error (.missing "CountComparisonCondition" "comparisonResult")
  | .countComparison (some _) (some _) none =>
    .error (.missing "CountComparisonCondition" "second")
  | .countComparison (some a) (some comparison) (some b) => do
    let first ← a.count v
    let second ← b.count v
    pure (comparison.apply first second)

end BundlePredicate

/-- Evaluates a condition at a bundle. -/
def Condition.testBundle (v : BundleView) (c : Condition BundlePredicate) :
    Except ConditionError Bool :=
  c.test (BundlePredicate.eval v)

end ProvenanceTrail
