import ProvenanceTrail.Condition.Bundle
import ProvenanceTrail.Proofs.Graph.LinearPath
import ProvenanceTrail.Proofs.Graph.Reach

/-!
# Complete conditions

Whatever is missing in a condition, at any depth, has a fault (`Condition.faults` and what follows it).
Evaluation goes no further than it needs, so it may not notice; but where it fails, it fails for one of
these faults (`FailsOnlyFor`). A condition without faults is complete and never fails, and no condition fails
otherwise than with an error of configuration (`complete_conditions_never_fail`).
-/

namespace ProvenanceTrail

/-! ## What is missing -/

/-- What a required operand lacks: the operand, or what is missing inside it. -/
def requiredFaults {α : Type} (variant field : String) (inside : α → List ConditionFault) :
    Option α → List ConditionFault
  | none => [.missingField variant field]
  | some a => inside a

namespace Condition

variable {P : Type}

mutual
/-- What is missing in a condition, given what is missing in its leaves. -/
def faults (leaf : P → List ConditionFault) : Condition P → List ConditionFault
  | .leaf predicate => leaf predicate
  | .not operand => operandFaults leaf "Negation" "condition" operand
  | .allTrue [] => [.emptyConjunction]
  | .allTrue (c :: rest) => c.faults leaf ++ listFaults leaf rest
  | .anyTrue operands => listFaults leaf operands
  | .either first second =>
    operandFaults leaf "Either" "first" first ++ operandFaults leaf "Either" "second" second
  | .implication premise consequence =>
    operandFaults leaf "Implication" "premise" premise ++
      operandFaults leaf "Implication" "consequence" consequence
termination_by structural c => c

/-- What a required operand lacks. -/
def operandFaults (leaf : P → List ConditionFault) (variant field : String) :
    Option (Condition P) → List ConditionFault
  | none => [.missingField variant field]
  | some c => c.faults leaf
termination_by structural c => c

/-- What is missing in the conditions of a list. -/
def listFaults (leaf : P → List ConditionFault) : List (Condition P) → List ConditionFault
  | [] => []
  | c :: rest => c.faults leaf ++ listFaults leaf rest
termination_by structural cs => cs
end

end Condition

/-- What a constraint lacks. -/
def ValueConstraint.faults : ValueConstraint → List ConditionFault
  | .name uri => requiredFaults "HasAttrQualifiedNameValue" "uriRegex" (fun _ => []) uri
  | .text none none => [.unconstrainedText]
  | .time none none none => [.unconstrainedTime]
  | _ => []

/-- What a predicate of a node lacks. -/
def NodePredicate.faults : NodePredicate → List ConditionFault
  | .hasId uri => requiredFaults "HasId" "idUriRegex" (fun _ => []) uri
  | .hasAttribute uri => requiredFaults "HasAttr" "attributeNameUri" (fun _ => []) uri
  | .hasAttributeValue uri constraint =>
    requiredFaults "HasAttrValue" "kind"
      (fun c => requiredFaults c.variant "attributeNameUri" (fun _ => []) uri ++ c.faults) constraint
  | .isKind kind => requiredFaults "IsKind" "kind" (fun _ => []) kind
  | .isNotKind kind => requiredFaults "IsNotKind" "kind" (fun _ => []) kind

/-- What a condition on nodes lacks. -/
def Condition.nodeFaults : Condition NodePredicate → List ConditionFault := faults NodePredicate.faults

/-- What a predicate of an edge lacks. -/
def EdgePredicate.faults : EdgePredicate → List ConditionFault
  | .isRelation relation => requiredFaults "IsRelation" "relation" (fun _ => []) relation
  | .isNotRelation relation => requiredFaults "IsNotRelation" "relation" (fun _ => []) relation

/-- What a condition on edges lacks. -/
def Condition.edgeFaults : Condition EdgePredicate → List ConditionFault := faults EdgePredicate.faults

/-- What a predicate of a step lacks; it requires nothing, but what it has may lack something. -/
def StepPredicate.faults : StepPredicate → List ConditionFault
  | .edgeToNode edge node _ =>
    edge.toList.flatMap Condition.edgeFaults ++ node.toList.flatMap Condition.nodeFaults
  | .derivationPath _ => []

/-- What a condition on steps lacks. -/
def Condition.stepFaults : Condition StepPredicate → List ConditionFault := faults StepPredicate.faults

namespace Findable

mutual
/-- What a search lacks. -/
def faults : Findable → List ConditionFault
  | .fittingNodes condition startsIn =>
    requiredFaults "FittingNodes" "nodeCondition" Condition.nodeFaults condition ++ startFaults startsIn
  | .linearPaths parts startsIn =>
    requiredFaults "FittingLinearSubgraphs" "graphParts" (·.flatMap Condition.stepFaults) parts ++
      startFaults startsIn
  | .filtered filter startsIn =>
    requiredFaults "FilteredSubgraphs" "filter" Condition.stepFaults filter ++ startFaults startsIn
  | .derivationPath _ => []
  | .startNode => []
  | .wholeGraph => []
termination_by structural f => f

/-- What the search lacks that another one starts from. -/
def startFaults : Option Findable → List ConditionFault
  | none => []
  | some inner => inner.faults
termination_by structural f => f
end

end Findable

/-- What a measure lacks. -/
def Countable.faults : Countable → List ConditionFault
  | .constant n => requiredFaults "CountConstant" "count" (fun _ => []) n
  | .size f => f.faults

/-- What a predicate of a bundle lacks. -/
def BundlePredicate.faults : BundlePredicate → List ConditionFault
  | .allNodes condition => requiredFaults "AllNodes" "condition" Condition.nodeFaults condition
  | .countComparison first comparison second =>
    requiredFaults "CountComparisonCondition" "first" Countable.faults first ++
      requiredFaults "CountComparisonCondition" "comparisonResult" (fun _ => []) comparison ++
      requiredFaults "CountComparisonCondition" "second" Countable.faults second

/-- What a condition on bundles lacks. -/
def Condition.bundleFaults : Condition BundlePredicate → List ConditionFault := faults BundlePredicate.faults

/-! ## Failing for a fault -/

/-- A result that is an error only for one of some faults. -/
def FailsOnlyFor {α : Type} (faults : List ConditionFault) (r : Except ConditionError α) : Prop :=
  ∀ err, r = .error err → ∃ fault ∈ faults, err = .configuration fault

section FailsOnlyFor

variable {α β : Type} {faults more : List ConditionFault} {fault : ConditionFault}
  {r : Except ConditionError α}

/-- More faults may be named. -/
theorem FailsOnlyFor.mono (h : FailsOnlyFor faults r) (hsub : faults ⊆ more) : FailsOnlyFor more r := by
  intro err herr
  obtain ⟨fault, hfault, heq⟩ := h err herr
  exact ⟨fault, hsub hfault, heq⟩

/-- A result fails for nothing. -/
theorem failsOnlyFor_ok (a : α) : FailsOnlyFor faults (.ok a : Except ConditionError α) := by
  intro err herr
  cases herr

/-- A failure is one for its own fault. -/
theorem failsOnlyFor_error (h : fault ∈ faults) :
    FailsOnlyFor faults (.error (.configuration fault) : Except ConditionError α) := by
  intro err herr
  obtain rfl := Except.error.inj herr
  exact ⟨fault, h, rfl⟩

/-- Two evaluations in turn fail only for what one of them fails for. -/
theorem FailsOnlyFor.bind {g : α → Except ConditionError β} (h : FailsOnlyFor faults r)
    (hg : ∀ a, FailsOnlyFor faults (g a)) : FailsOnlyFor faults (r >>= g) := by
  cases r with
  | ok a => exact hg a
  | error e =>
    intro err herr
    obtain rfl := Except.error.inj herr
    exact h e rfl

/-- Changing the result adds no failure. -/
theorem FailsOnlyFor.map (h : FailsOnlyFor faults r) (g : α → β) : FailsOnlyFor faults (r.map g) := by
  cases r with
  | ok a => exact failsOnlyFor_ok _
  | error e =>
    intro err herr
    obtain rfl := Except.error.inj herr
    exact h e rfl

/-- A choice between two evaluations fails only for what one of them fails for. -/
theorem FailsOnlyFor.ite {p : Prop} [Decidable p] {r' : Except ConditionError α} (h : FailsOnlyFor faults r)
    (h' : FailsOnlyFor faults r') : FailsOnlyFor faults (if p then r else r') := by
  split
  · exact h
  · exact h'

/-- Without faults there is a result. -/
theorem FailsOnlyFor.exists_ok (h : FailsOnlyFor [] r) : ∃ a, r = .ok a := by
  cases r with
  | ok a => exact ⟨a, rfl⟩
  | error e =>
    obtain ⟨fault, hfault, -⟩ := h e rfl
    cases hfault

end FailsOnlyFor

/-! ## Conditions -/

namespace Condition

variable {P : Type} {leaf : P → List ConditionFault} {eval : P → Except ConditionError Bool}

mutual
/-- A condition fails only for its own faults, if its leaves do. -/
theorem failsOnlyFor_test (h : ∀ p, FailsOnlyFor (leaf p) (eval p)) :
    ∀ c : Condition P, FailsOnlyFor (c.faults leaf) (c.test eval)
  | .leaf p => h p
  | .not none => failsOnlyFor_error (List.mem_singleton_self _)
  | .not (some c) => (failsOnlyFor_test h c).bind fun _ => failsOnlyFor_ok _
  | .allTrue [] => failsOnlyFor_error (List.mem_singleton_self _)
  | .allTrue (c :: rest) =>
    ((failsOnlyFor_test h c).mono (List.subset_append_left _ _)).bind fun _ =>
      .ite ((failsOnlyFor_testAll h rest).mono (List.subset_append_right _ _)) (failsOnlyFor_ok _)
  | .anyTrue [] => failsOnlyFor_ok _
  | .anyTrue (c :: rest) =>
    ((failsOnlyFor_test h c).mono (List.subset_append_left _ _)).bind fun _ =>
      .ite (failsOnlyFor_ok _) ((failsOnlyFor_testAny h rest).mono (List.subset_append_right _ _))
  | .either none _ => failsOnlyFor_error (List.mem_append_left _ (List.mem_singleton_self _))
  | .either (some _) none => failsOnlyFor_error (List.mem_append_right _ (List.mem_singleton_self _))
  | .either (some a) (some b) =>
    ((failsOnlyFor_test h a).mono (List.subset_append_left _ _)).bind fun _ =>
      ((failsOnlyFor_test h b).mono (List.subset_append_right _ _)).bind fun _ => failsOnlyFor_ok _
  | .implication none _ => failsOnlyFor_error (List.mem_append_left _ (List.mem_singleton_self _))
  | .implication (some _) none => failsOnlyFor_error (List.mem_append_right _ (List.mem_singleton_self _))
  | .implication (some p) (some c) =>
    ((failsOnlyFor_test h p).mono (List.subset_append_left _ _)).bind fun _ =>
      .ite ((failsOnlyFor_test h c).mono (List.subset_append_right _ _)) (failsOnlyFor_ok _)
termination_by structural c => c

/-- A conjunction fails only for the faults of its members. -/
theorem failsOnlyFor_testAll (h : ∀ p, FailsOnlyFor (leaf p) (eval p)) :
    ∀ cs : List (Condition P), FailsOnlyFor (listFaults leaf cs) (testAll eval cs)
  | [] => failsOnlyFor_ok _
  | c :: rest =>
    ((failsOnlyFor_test h c).mono (List.subset_append_left _ _)).bind fun _ =>
      .ite ((failsOnlyFor_testAll h rest).mono (List.subset_append_right _ _)) (failsOnlyFor_ok _)
termination_by structural cs => cs

/-- A disjunction fails only for the faults of its members. -/
theorem failsOnlyFor_testAny (h : ∀ p, FailsOnlyFor (leaf p) (eval p)) :
    ∀ cs : List (Condition P), FailsOnlyFor (listFaults leaf cs) (testAny eval cs)
  | [] => failsOnlyFor_ok _
  | c :: rest =>
    ((failsOnlyFor_test h c).mono (List.subset_append_left _ _)).bind fun _ =>
      .ite (failsOnlyFor_ok _) ((failsOnlyFor_testAny h rest).mono (List.subset_append_right _ _))
termination_by structural cs => cs
end

end Condition

/-! ## Leaves -/

/-- The fault that is noticed in a constraint is the first that it has. -/
theorem ValueConstraint.fault?_eq (c : ValueConstraint) : c.fault? = c.faults.head?.map .configuration := by
  rcases c with (_ | _) | ⟨_ | _, _ | _⟩ | ⟨_ | _, _ | _, _ | _⟩ <;> rfl

/-- A test of a node fails only for the faults of the test. -/
theorem NodePredicate.failsOnlyFor_eval (n : Node) : ∀ p : NodePredicate, FailsOnlyFor p.faults (p.eval n)
  | .hasId none | .hasAttribute none | .hasAttributeValue _ none | .isKind none | .isNotKind none =>
    failsOnlyFor_error (List.mem_singleton_self _)
  | .hasAttributeValue none (some c) =>
    failsOnlyFor_error (List.mem_append_left _ (List.mem_singleton_self _))
  | .hasAttributeValue (some uri) (some c) => by
    rw [eval, c.fault?_eq]
    cases hfaults : c.faults.head? with
    | none => exact failsOnlyFor_ok _
    | some fault => exact failsOnlyFor_error (List.mem_append_right _ (List.mem_of_mem_head? hfaults))
  | .hasId (some _) | .hasAttribute (some _) | .isKind (some _) | .isNotKind (some _) => failsOnlyFor_ok _

/-- A condition on nodes fails only for its faults. -/
theorem Condition.failsOnlyFor_testNode (n : Node) (c : Condition NodePredicate) :
    FailsOnlyFor c.nodeFaults (c.testNode n) :=
  failsOnlyFor_test (NodePredicate.failsOnlyFor_eval n) c

/-- A test of an edge fails only for the faults of the test. -/
theorem EdgePredicate.failsOnlyFor_eval {size : Nat} (e : Edge size) :
    ∀ p : EdgePredicate, FailsOnlyFor p.faults (p.eval e)
  | .isRelation none | .isNotRelation none => failsOnlyFor_error (List.mem_singleton_self _)
  | .isRelation (some _) | .isNotRelation (some _) => failsOnlyFor_ok _

/-- A condition on edges fails only for its faults. -/
theorem Condition.failsOnlyFor_testEdge {size : Nat} (e : Edge size) (c : Condition EdgePredicate) :
    FailsOnlyFor c.edgeFaults (c.testEdge e) :=
  failsOnlyFor_test (EdgePredicate.failsOnlyFor_eval e) c

namespace StepPredicate

variable {b : Bundle}

/-- The check of the edge. -/
def edgeCheck (s : Step b) (edge : Option (Condition EdgePredicate)) : Except ConditionError Bool :=
  match edge, s.edge with
  | none, _ => pure true
  | some _, none => pure false
  | some c, some e => c.testEdge (b.edge e)

/-- The check of the node. -/
def nodeCheck (s : Step b) : Option (Condition NodePredicate) → Except ConditionError Bool
  | none => pure true
  | some c => c.testNode (b.node s.node)

/-- A step is tested by its edge, then by its node, then by its direction. -/
theorem evalEdgeToNode_eq (s : Step b) (edge : Option (Condition EdgePredicate))
    (node : Option (Condition NodePredicate)) (nodeIsEffect : Option Bool) :
    evalEdgeToNode s edge node nodeIsEffect = do
      if !(← edgeCheck s edge) then return false
      if !(← nodeCheck s node) then return false
      return match nodeIsEffect, s.edge with
        | none, _ => true
        | some _, none => false
        | some expected, some e => ((b.edge e).effect == s.node) == expected := by
  obtain ⟨_ | e, n⟩ := s <;> cases edge <;> cases node <;> rfl

/-- The test of an edge and a node fails only for the faults of their conditions. -/
theorem failsOnlyFor_evalEdgeToNode (s : Step b) (edge : Option (Condition EdgePredicate))
    (node : Option (Condition NodePredicate)) (nodeIsEffect : Option Bool) :
    FailsOnlyFor (faults (.edgeToNode edge node nodeIsEffect)) (evalEdgeToNode s edge node nodeIsEffect) := by
  have hedge : FailsOnlyFor (faults (.edgeToNode edge node nodeIsEffect)) (edgeCheck s edge) := by
    obtain ⟨_ | e, n⟩ := s <;> rcases edge with _ | c
    · exact failsOnlyFor_ok _
    · exact failsOnlyFor_ok _
    · exact failsOnlyFor_ok _
    · refine (c.failsOnlyFor_testEdge (b.edge e)).mono ?_
      simp [faults]
  have hnode : FailsOnlyFor (faults (.edgeToNode edge node nodeIsEffect)) (nodeCheck s node) := by
    rcases node with _ | c
    · exact failsOnlyFor_ok _
    · refine (c.failsOnlyFor_testNode (b.node s.node)).mono ?_
      simp [faults]
  rw [evalEdgeToNode_eq]
  refine hedge.bind fun edgeHolds => .ite (failsOnlyFor_ok _) ?_
  exact hnode.bind fun nodeHolds => .ite (failsOnlyFor_ok _) (failsOnlyFor_ok _)

/-- A test of a step without derivation paths fails only for its faults. -/
theorem failsOnlyFor_evalPlain (s : Step b) : ∀ p : StepPredicate, FailsOnlyFor p.faults (p.evalPlain s)
  | .edgeToNode edge node nodeIsEffect => failsOnlyFor_evalEdgeToNode s edge node nodeIsEffect
  | .derivationPath _ => failsOnlyFor_ok _

/-- A test of a step fails only for its faults. -/
theorem failsOnlyFor_eval (s : Step b) : ∀ p : StepPredicate, FailsOnlyFor p.faults (p.eval s)
  | .edgeToNode edge node nodeIsEffect => failsOnlyFor_evalEdgeToNode s edge node nodeIsEffect
  | .derivationPath backward =>
    -- the condition that stands for a derivation path is complete
    Condition.failsOnlyFor_test (failsOnlyFor_evalPlain s) (derivationStep backward)

end StepPredicate

/-- A condition on steps fails only for its faults. -/
theorem Condition.failsOnlyFor_testStep {b : Bundle} (s : Step b) (c : Condition StepPredicate) :
    FailsOnlyFor c.stepFaults (c.testStep s) :=
  failsOnlyFor_test (StepPredicate.failsOnlyFor_eval s) c

/-! ## Searches -/

namespace Bundle

variable {α β : Type} {faults : List ConditionFault} {b : Bundle}

/-- Filtering a list fails only for what the test fails for. -/
theorem failsOnlyFor_filterOrFail {test : α → Except ConditionError Bool}
    (h : ∀ a, FailsOnlyFor faults (test a)) (as : List α) : FailsOnlyFor faults (filterOrFail test as) := by
  induction as with
  | nil => exact failsOnlyFor_ok _
  | cons a rest ih =>
    have hbind : filterOrFail test (a :: rest) = test a >>= fun passed =>
        filterOrFail test rest >>= fun kept => pure (if passed then a :: kept else kept) := by
      rw [filterOrFail]
      cases test a with
      | error e => rfl
      | ok passed => cases filterOrFail test rest <;> rfl
    rw [hbind]
    exact (h a).bind fun passed => ih.bind fun kept => failsOnlyFor_ok _

/-- Collecting over a list fails only for what is collected with. -/
theorem failsOnlyFor_collect {f : α → Except ConditionError (List β)} (h : ∀ a, FailsOnlyFor faults (f a))
    (as : List α) : FailsOnlyFor faults (collect f as) := by
  intro err herr
  obtain ⟨-, a, -, -, ha, -⟩ := exists_of_collect_eq_error herr
  exact h a err ha

/-- A filtered search fails only for what its filter fails for. -/
theorem failsOnlyFor_reachSteps {filter : Step b → Except ConditionError Bool}
    (h : ∀ s, FailsOnlyFor faults (filter s)) (start : b.NodeIx) :
    FailsOnlyFor faults (b.reachSteps filter start) := by
  intro err herr
  have hnodes : b.reachFiltered filter start = .error err := by rw [reachFiltered, herr, Except.map]
  obtain ⟨-, -, e, m, -, -, -, hfilter⟩ := reachFiltered_eq_error hnodes
  exact h _ err hfilter

/-- A search for linear paths fails only for what its tests fail for. -/
theorem failsOnlyFor_linearPaths {test : Nat → Step b → Except ConditionError Bool}
    (h : ∀ i s, FailsOnlyFor faults (test i s)) (depth : Nat) (start : b.NodeIx) :
    FailsOnlyFor faults (b.linearPaths test depth start) := by
  intro err herr
  obtain ⟨path, s, -, htest, -⟩ := linearPaths_eq_error_iff.1 herr
  exact h _ s err htest

end Bundle

namespace Findable

variable (v : BundleView)

/-- Choosing nodes fails only for the faults of the condition. -/
theorem failsOnlyFor_nodesAmong (c : Condition NodePredicate) (candidates : List v.bundle.NodeIx) :
    FailsOnlyFor c.nodeFaults (nodesAmong v c candidates) :=
  (Bundle.failsOnlyFor_filterOrFail (fun n => c.failsOnlyFor_testNode (v.bundle.node n)) candidates).map _

/-- Filtered searches from some nodes fail only for the faults of the filter. -/
theorem failsOnlyFor_filteredFrom (filter : Condition StepPredicate) (starts : List v.bundle.NodeIx) :
    FailsOnlyFor filter.stepFaults (filteredFrom v filter starts) :=
  Bundle.failsOnlyFor_collect
    (fun start => (Bundle.failsOnlyFor_reachSteps filter.failsOnlyFor_testStep start).map _) starts

/-- Searches for linear paths from some nodes fail only for the faults of their parts. -/
theorem failsOnlyFor_pathsFrom (parts : List (Condition StepPredicate)) (starts : List v.bundle.NodeIx) :
    FailsOnlyFor (parts.flatMap Condition.stepFaults) (pathsFrom v parts starts) := by
  refine Bundle.failsOnlyFor_collect (fun start => (Bundle.failsOnlyFor_linearPaths ?_ _ start).map _) starts
  intro i s
  cases hpart : parts[i]? with
  | none => exact failsOnlyFor_ok _
  | some part =>
    refine (part.failsOnlyFor_testStep s).mono fun fault hfault => ?_
    exact List.mem_flatMap.2 ⟨part, List.mem_of_getElem? hpart, hfault⟩

/-- A search in a bundle fails only for its faults, those of the searches in it included. -/
theorem failsOnlyFor_find : ∀ f : Findable, FailsOnlyFor f.faults (f.find v)
  | .fittingNodes none _ => failsOnlyFor_error (List.mem_append_left _ (List.mem_singleton_self _))
  | .fittingNodes (some c) none => (failsOnlyFor_nodesAmong v c _).mono (List.subset_append_left _ _)
  | .fittingNodes (some c) (some inner) =>
    ((failsOnlyFor_find inner).mono (List.subset_append_right _ _)).bind fun _ =>
      (failsOnlyFor_nodesAmong v c _).mono (List.subset_append_left _ _)
  | .linearPaths none _ => failsOnlyFor_error (List.mem_append_left _ (List.mem_singleton_self _))
  | .linearPaths (some parts) none => (failsOnlyFor_pathsFrom v parts _).mono (List.subset_append_left _ _)
  | .linearPaths (some parts) (some inner) =>
    ((failsOnlyFor_find inner).mono (List.subset_append_right _ _)).bind fun _ =>
      (failsOnlyFor_pathsFrom v parts _).mono (List.subset_append_left _ _)
  | .filtered none _ => failsOnlyFor_error (List.mem_append_left _ (List.mem_singleton_self _))
  | .filtered (some filter) none => (failsOnlyFor_filteredFrom v filter _).mono (List.subset_append_left _ _)
  | .filtered (some filter) (some inner) =>
    ((failsOnlyFor_find inner).mono (List.subset_append_right _ _)).bind fun _ =>
      (failsOnlyFor_filteredFrom v filter _).mono (List.subset_append_left _ _)
  | .derivationPath backward => failsOnlyFor_filteredFrom v (.leaf (.derivationPath backward)) _
  | .startNode => failsOnlyFor_ok _
  | .wholeGraph => failsOnlyFor_ok _
termination_by structural f => f

/-- Counting what a search finds fails only for the faults of the search. -/
theorem failsOnlyFor_count (f : Findable) : FailsOnlyFor f.faults (f.count v) :=
  (failsOnlyFor_find v f).bind fun _ => failsOnlyFor_ok _

end Findable

/-- A measure fails only for its faults. -/
theorem Countable.failsOnlyFor_count (v : BundleView) : ∀ m : Countable, FailsOnlyFor m.faults (m.count v)
  | .constant none => failsOnlyFor_error (List.mem_singleton_self _)
  | .constant (some _) => failsOnlyFor_ok _
  | .size f => f.failsOnlyFor_count v

/-! ## Bundles -/

namespace BundlePredicate

/-- Testing some nodes fails only for the faults of the condition. -/
theorem failsOnlyFor_allSatisfy (c : Condition NodePredicate) (nodes : List Node) :
    FailsOnlyFor c.nodeFaults (allSatisfy c nodes) := by
  induction nodes with
  | nil => exact failsOnlyFor_ok _
  | cons n rest ih => exact (c.failsOnlyFor_testNode n).bind fun _ => .ite ih (failsOnlyFor_ok _)

/-- A test of a bundle fails only for its faults. -/
theorem failsOnlyFor_eval (v : BundleView) : ∀ p : BundlePredicate, FailsOnlyFor p.faults (p.eval v)
  | .allNodes none => failsOnlyFor_error (List.mem_singleton_self _)
  | .allNodes (some c) => failsOnlyFor_allSatisfy c _
  | .countComparison none _ _ => failsOnlyFor_error (by simp [faults, requiredFaults])
  | .countComparison (some _) none _ => failsOnlyFor_error (by simp [faults, requiredFaults])
  | .countComparison (some _) (some _) none => failsOnlyFor_error (by simp [faults, requiredFaults])
  | .countComparison (some a) (some comparison) (some b) => by
    have hfirst : a.faults ⊆ faults (.countComparison (some a) (some comparison) (some b)) := by
      simp [faults, requiredFaults]
    have hsecond : b.faults ⊆ faults (.countComparison (some a) (some comparison) (some b)) := by
      simp [faults, requiredFaults]
    exact ((a.failsOnlyFor_count v).mono hfirst).bind fun _ =>
      ((b.failsOnlyFor_count v).mono hsecond).bind fun _ => failsOnlyFor_ok _

end BundlePredicate

/-- A condition on bundles fails only for its faults. -/
theorem Condition.failsOnlyFor_testBundle (v : BundleView) (c : Condition BundlePredicate) :
    FailsOnlyFor c.bundleFaults (c.testBundle v) :=
  failsOnlyFor_test (BundlePredicate.failsOnlyFor_eval v) c

/-! ## Complete conditions -/

/-- A result where nothing is missing; otherwise at most an error of configuration for one of the faults. -/
def Reports {α : Type} (faults : List ConditionFault) (r : Except ConditionError α) : Prop :=
  (faults = [] → ∃ a, r = .ok a) ∧ ∀ err, r = .error err → ∃ fault ∈ faults, err = .configuration fault

/-- What fails only for some faults gives a result where there are none of them. -/
theorem FailsOnlyFor.reports {α : Type} {faults : List ConditionFault} {r : Except ConditionError α}
    (h : FailsOnlyFor faults r) : Reports faults r := by
  refine ⟨?_, h⟩
  rintro rfl
  exact h.exists_ok

/-- Conditions, searches and measures that are complete never fail, on whatever node, edge, step or bundle.
Others fail, if they do, with an error of configuration for something that they lack. -/
theorem complete_conditions_never_fail :
    (∀ (c : Condition NodePredicate) (n : Node), Reports c.nodeFaults (c.testNode n)) ∧
    (∀ (c : Condition EdgePredicate) (size : Nat) (e : Edge size), Reports c.edgeFaults (c.testEdge e)) ∧
    (∀ (c : Condition StepPredicate) (b : Bundle) (s : Step b), Reports c.stepFaults (c.testStep s)) ∧
    (∀ (c : Condition BundlePredicate) (v : BundleView), Reports c.bundleFaults (c.testBundle v)) ∧
    (∀ (f : Findable) (v : BundleView), Reports f.faults (f.find v) ∧ Reports f.faults (f.count v)) ∧
    ∀ (m : Countable) (v : BundleView), Reports m.faults (m.count v) :=
  ⟨fun c n => (c.failsOnlyFor_testNode n).reports, fun c _ e => (c.failsOnlyFor_testEdge e).reports,
    fun c _ s => (c.failsOnlyFor_testStep s).reports, fun c v => (c.failsOnlyFor_testBundle v).reports,
    fun f v => ⟨(f.failsOnlyFor_find v).reports, (f.failsOnlyFor_count v).reports⟩,
    fun m v => (m.failsOnlyFor_count v).reports⟩

/-- A conjunction that has its operands is complete. -/
example : Condition.nodeFaults
    (.allTrue [.leaf (.isKind (some .entity)), .not (some (.leaf (.isNotKind (some .agent))))]) = [] := by
  decide

/-- What is missing is found at any depth, also where evaluation does not come to it. -/
example : Condition.nodeFaults (.anyTrue [.leaf (.isKind none), .either (some (.allTrue [])) none]) =
    [.missingField "IsKind" "kind", .emptyConjunction, .missingField "Either" "second"] := by
  decide

end ProvenanceTrail
