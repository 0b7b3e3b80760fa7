import ProvenanceTrail.Condition.Basic

/-!
# Laws of the connectives

An operand of a condition holds, does not hold, or fails to be evaluated, and the connectives look at their
operands from left to right, only as far as they need. The laws of propositional logic below keep all of
this: both sides look at the same operands in the same order, so they have the same value, or fail with the
same error, whatever the leaves are.

They are laws of the two ways in which a result goes on to another one (`Truth.both`, `Truth.oneOf`),
carried over to conditions: a list of operands is evaluated by one of the two, member by member. The laws of
De Morgan stop at the empty list, where a conjunction fails and a disjunction holds.
-/

namespace ProvenanceTrail

/-- What the evaluation of a condition gives: true, false or an error. -/
abbrev Truth : Type := Except ConditionError Bool

namespace Truth

/-- Asks for the second result when the first is true. -/
def both (x y : Truth) : Truth := do
  if ← x then y else pure false

/-- Asks for the second result when the first is false. -/
def oneOf (x y : Truth) : Truth := do
  if ← x then pure true else y

/-- The other result; an error stays. -/
def negated (x : Truth) : Truth := x.map fun holds => !holds

/-- De Morgan's law for two values. -/
theorem negated_both (x y : Truth) : negated (both x y) = oneOf (negated x) (negated y) := by
  rcases x with err | _ | _
  · rfl
  · rfl
  · rfl

/-- De Morgan's law, the other way round. -/
theorem negated_oneOf (x y : Truth) : negated (oneOf x y) = both (negated x) (negated y) := by
  rcases x with err | _ | _
  · rfl
  · rfl
  · rfl

/-- Truth is neutral for conjunction, errors included. -/
theorem both_true (x : Truth) : both x (.ok true) = x := by
  rcases x with err | _ | _
  · rfl
  · rfl
  · rfl

/-- Falsity is neutral for disjunction, errors included. -/
theorem oneOf_false (x : Truth) : oneOf x (.ok false) = x := by
  rcases x with err | _ | _
  · rfl
  · rfl
  · rfl

end Truth

namespace Condition

open Truth

variable {P : Type}

/-- The negation of a condition. -/
def negation (c : Condition P) : Condition P := .not (some c)

variable (eval : P → Truth) (a b p c : Condition P) (cs : List (Condition P))

/-! ## Evaluation, one operand at a time -/

/-- A negation negates what its condition comes to. -/
theorem test_negation : c.negation.test eval = negated (c.test eval) := rfl

theorem testAll_nil : testAll eval [] = .ok true := rfl

theorem testAll_cons : testAll eval (c :: cs) = both (c.test eval) (testAll eval cs) := rfl

theorem testAny_nil : testAny eval [] = .ok false := rfl

theorem testAny_cons : testAny eval (c :: cs) = oneOf (c.test eval) (testAny eval cs) := rfl

/-- A conjunction that is not empty tests all its conditions. -/
theorem test_allTrue_cons : (allTrue (c :: cs)).test eval = testAll eval (c :: cs) := rfl

/-- A disjunction that is not empty tests some of its conditions. -/
theorem test_anyTrue_cons : (anyTrue (c :: cs)).test eval = testAny eval (c :: cs) := rfl

theorem test_allTrue_pair : (allTrue [a, b]).test eval = both (a.test eval) (b.test eval) := by
  rw [test_allTrue_cons, testAll_cons, testAll_cons, testAll_nil, both_true]

theorem test_anyTrue_pair : (anyTrue [a, b]).test eval = oneOf (a.test eval) (b.test eval) := by
  rw [test_anyTrue_cons, testAny_cons, testAny_cons, testAny_nil, oneOf_false]

/-! ## The laws of De Morgan -/

/-- A disjunction of negations stops at the operand at which the conjunction stops. -/
theorem testAny_map_negation : testAny eval (cs.map negation) = negated (testAll eval cs) := by
  induction cs with
  | nil => rfl
  | cons c rest ih =>
    rw [List.map_cons, testAny_cons, testAll_cons, negated_both, test_negation, ih]

/-- A conjunction of negations stops at the operand at which the disjunction stops. -/
theorem testAll_map_negation : testAll eval (cs.map negation) = negated (testAny eval cs) := by
  induction cs with
  | nil => rfl
  | cons c rest ih =>
    rw [List.map_cons, testAll_cons, testAny_cons, negated_oneOf, test_negation, ih]

/-- A conjunction does not hold when one of its operands does not. Of the empty list this is not so, since its
conjunction fails. -/
theorem test_negation_allTrue :
    (allTrue cs).negation.test eval = (anyTrue (cs.map negation)).test eval ↔ cs ≠ [] := by
  cases cs with
  | nil =>
    refine iff_of_false ?_ fun h => h rfl
    show Except.error (ConditionError.configuration .emptyConjunction) ≠ (Except.ok true : Truth)
    exact fun h => nomatch h
  | cons c rest =>
    refine iff_of_true ?_ (List.cons_ne_nil c rest)
    rw [test_negation, test_allTrue_cons, ← testAny_map_negation]
    rfl

/-- A disjunction does not hold when none of its operands does. Of the empty list this is not so, since its
disjunction holds, and its conjunction fails. -/
theorem test_negation_anyTrue :
    (anyTrue cs).negation.test eval = (allTrue (cs.map negation)).test eval ↔ cs ≠ [] := by
  cases cs with
  | nil =>
    refine iff_of_false ?_ fun h => h rfl
    show (Except.ok false : Truth) ≠ Except.error (ConditionError.configuration .emptyConjunction)
    exact fun h => nomatch h
  | cons c rest =>
    refine iff_of_true ?_ (List.cons_ne_nil c rest)
    rw [test_negation, test_anyTrue_cons, ← testAll_map_negation]
    rfl

/-! ## Implications and exclusive disjunctions -/

/-- Only a premise that holds makes an implication look at its consequence. -/
theorem test_implication :
    (implication (some p) (some c)).test eval = (anyTrue [p.negation, c]).test eval := by
  rw [test_anyTrue_pair, test_negation, test]
  rcases p.test eval with err | _ | _
  · rfl
  · rfl
  · rfl

/-- One of two conditions holds and the other does not. Whatever the first gives, each side looks at the second
once and for all: where the first does not hold, the second is left to the other conjunction. -/
theorem test_either : (either (some a) (some b)).test eval =
    (anyTrue [allTrue [a, b.negation], allTrue [a.negation, b]]).test eval := by
  rw [test_anyTrue_pair, test_allTrue_pair, test_allTrue_pair, test_negation, test_negation, test]
  rcases a.test eval with err | _ | _
  · rfl
  · rcases b.test eval with err | _ | _
    · rfl
    · rfl
    · rfl
  · rcases b.test eval with err | _ | _
    · rfl
    · rfl
    · rfl

/-- The laws of De Morgan, for the lists that are not empty, an implication as a disjunction, and the exclusive
disjunction of two conditions as a disjunction of conjunctions: the two sides have the same value or fail with
the same error. -/
theorem connective_laws :
    ((allTrue cs).negation.test eval = (anyTrue (cs.map negation)).test eval ↔ cs ≠ []) ∧
    ((anyTrue cs).negation.test eval = (allTrue (cs.map negation)).test eval ↔ cs ≠ []) ∧
    (implication (some p) (some c)).test eval = (anyTrue [p.negation, c]).test eval ∧
    (either (some a) (some b)).test eval =
      (anyTrue [allTrue [a, b.negation], allTrue [a.negation, b]]).test eval :=
  ⟨test_negation_allTrue eval cs, test_negation_anyTrue eval cs, test_implication eval p c,
    test_either eval a b⟩

end Condition

end ProvenanceTrail
