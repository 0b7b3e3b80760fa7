import ProvenanceTrail.Proofs.Condition.DerivationPath
import ProvenanceTrail.Proofs.Regex.Escaping
import ProvenanceTrail.Query.Basic

/-!
# The connectors that are discovered

A query for connectors looks for the nodes of a derivation path with a type that matches a pattern. The
pattern is made for the types of connectors: for one direction it is the escaped type, and for both the
types have a common front and end (`connectorPattern_eq_escape`, `connectorPattern_eq_choice`). So it accepts
just the types that `Bundle.isConnector` looks for, whatever else the types of a bundle are
(`exists_connectorPredicate`).
-/

namespace ProvenanceTrail

open Pattern (escape choice)

/-! ## The pattern for the types of connectors -/

/-- For one direction, the pattern is the escaped type of connectors. -/
theorem connectorPattern_eq_escape (d : Direction) : connectorPattern (some d) = escape d.connectorType := by
  have hpattern : connectorPattern (some d) = escape Vocabulary.cpm ++ d.name ++ "Connector" := by
    cases d <;> rfl
  have htype : d.connectorType = Vocabulary.cpm ++ (d.name ++ "Connector") := by
    cases d <;> exact congrArg (Vocabulary.cpm ++ ·) (by decide)
  have hword : escape (d.name ++ "Connector") = d.name ++ "Connector" := by cases d <;> decide
  rw [hpattern, htype, Pattern.escape_append, hword, String.append_assoc]

/-- For both directions, it is a choice between the two. -/
theorem connectorPattern_eq_choice :
    connectorPattern none = choice Vocabulary.cpm "backward" "forward" "Connector" := by
  have hchoice : "(" ++ (escape "backward" ++ ("|" ++ (escape "forward" ++ (")" ++ escape "Connector")))) =
      "(backward|forward)" ++ "Connector" := by decide
  simp only [connectorPattern, choice, String.append_assoc, hchoice]

/-- The types of the connectors of a direction, or of both when none is given. -/
def connectorTypes : Option Direction → List String
  | some d => [d.connectorType]
  | none => [Vocabulary.backwardConnector, Vocabulary.forwardConnector]

/-- The pattern for connectors can be read, and accepts their types and nothing else. -/
theorem exists_connectorPattern (direction : Option Direction) :
    ∃ p, Pattern.ofSource? (connectorPattern direction) = some p ∧
      ∀ uri, p.accepts uri ↔ uri ∈ connectorTypes direction := by
  cases direction with
  | some d =>
    have hfits : (Regex.whole (Pattern.literal d.connectorType)).depth ≤ Regex.nestLimit &&
        (Regex.whole (Pattern.literal d.connectorType)).fits := by
      cases d <;> decide +kernel
    have hread := Pattern.ofSource?_escape d.connectorType
    rw [if_pos hfits] at hread
    rw [connectorPattern_eq_escape]
    refine ⟨_, hread, fun uri => ?_⟩
    rw [Pattern.accepts_escape hread, connectorTypes, List.mem_singleton]
  | none =>
    -- the limits of the reader are met by these patterns
    have hfits : (Regex.whole (Pattern.choiceRegex Vocabulary.cpm "backward" "forward" "Connector")).depth ≤
          Regex.nestLimit &&
        (Regex.whole (Pattern.choiceRegex Vocabulary.cpm "backward" "forward" "Connector")).fits := by
      decide +kernel
    have hword : "backward" ≠ "" := by decide
    have hread := Pattern.ofSource?_choice Vocabulary.cpm hword "forward" "Connector"
    rw [if_pos hfits] at hread
    rw [connectorPattern_eq_choice]
    refine ⟨_, hread, fun uri => ?_⟩
    have hbackward : Vocabulary.cpm ++ "backward" ++ "Connector" = Vocabulary.backwardConnector := by
      decide +kernel
    have hforward : Vocabulary.cpm ++ "forward" ++ "Connector" = Vocabulary.forwardConnector := by
      decide +kernel
    rw [Pattern.accepts_choice hword hread, hbackward, hforward]
    simp [connectorTypes]

/-! ## The condition on nodes -/

section Types

variable {b : Bundle} {n : b.NodeIx}

/-- A node has a type just if one of its types is a name with that URI. -/
theorem Bundle.hasType_iff {uri : String} :
    b.hasType n uri ↔
      ∃ name, .qualifiedName name ∈ (b.node n).values Vocabulary.type ∧ name.uri = uri := by
  rw [hasType, Node.hasNameValue, List.any_eq_true]
  constructor
  · rintro ⟨value, hvalue, hname⟩
    cases value with
    | qualifiedName name => exact ⟨name, hvalue, by simpa [AttributeValue.name?] using hname⟩
    | _ => simp [AttributeValue.name?] at hname
  · rintro ⟨name, hname, rfl⟩
    exact ⟨_, hname, by simp [AttributeValue.name?]⟩

/-- A node is a connector just if it has one of their types. -/
theorem Bundle.isConnector_iff {direction : Option Direction} :
    b.isConnector n direction ↔ ∃ uri ∈ connectorTypes direction, b.hasType n uri := by
  cases direction <;> simp [isConnector, connectorTypes, or_comm]

/-- A constraint on names admits just names with an accepted URI. -/
theorem ValueConstraint.admits_name_iff {p : Pattern} {value : AttributeValue} :
    (ValueConstraint.name (some p)).admits value ↔
      ∃ name, value = .qualifiedName name ∧ p.accepts name.uri := by
  cases value <;> simp [admits]

/-- The condition on the types of a node never fails, and holds for the connectors. -/
theorem exists_connectorPredicate (b : Bundle) (direction : Option Direction) :
    ∃ predicate, NodePredicate.hasNameValue? Vocabulary.type (connectorPattern direction) = some predicate ∧
      ∀ n, (Condition.leaf predicate).testNode (b.node n) = .ok (b.isConnector n direction) := by
  obtain ⟨p, hread, haccepts⟩ := exists_connectorPattern direction
  refine ⟨.hasAttributeValue (some Vocabulary.type) (some (.name (some p))), ?_, fun n => ?_⟩
  · rw [NodePredicate.hasNameValue?, hread]
    rfl
  have hconnector : ((b.node n).values Vocabulary.type).any (ValueConstraint.name (some p)).admits =
      b.isConnector n direction := by
    rw [Bool.eq_iff_iff, List.any_eq_true, Bundle.isConnector_iff]
    simp only [ValueConstraint.admits_name_iff, haccepts, Bundle.hasType_iff]
    constructor
    · rintro ⟨-, hvalue, name, rfl, huri⟩
      exact ⟨name.uri, huri, name, hvalue, rfl⟩
    · rintro ⟨-, huri, name, hvalue, rfl⟩
      exact ⟨_, hvalue, name, rfl, huri⟩
  rw [← hconnector]
  rfl

end Types

/-! ## Discovery -/

namespace Findable

variable {v : BundleView} {c : Condition NodePredicate}

/-- A condition that never fails is met by some of the candidates, which are kept in their order. -/
theorem nodesAmong_eq_ok {passes : v.bundle.NodeIx → Bool}
    (h : ∀ n, c.testNode (v.bundle.node n) = .ok (passes n)) (candidates : List v.bundle.NodeIx) :
    nodesAmong v c candidates = .ok ((candidates.filter passes).map Subgraph.single) := by
  rw [nodesAmong, Bundle.filterOrFail_eq_ok h]
  rfl

/-- Fitting nodes are looked for among the different nodes that the inner search finds. -/
theorem find_fittingNodes {inner : Findable} {found : List (Subgraph v.bundle)}
    (h : inner.find v = .ok found) :
    (fittingNodes (some c) (some inner)).find v = nodesAmong v c (Subgraph.distinctNodes found) := by
  have hinner : (fittingNodes (some c) (some inner)).find v =
      inner.find v >>= fun found => nodesAmong v c (Subgraph.distinctNodes found) := rfl
  rw [hinner, h]
  rfl

end Findable

/-- Discovery gives the records of the nodes that its search finds. -/
theorem discoverConnectors_eq_ok {v : BundleView} {direction : Option Direction} {predicate : NodePredicate}
    {found : List (Subgraph v.bundle)}
    (hpredicate : NodePredicate.hasNameValue? Vocabulary.type (connectorPattern direction) = some predicate)
    (hfound : (Findable.fittingNodes (some (.leaf predicate))
      (some (.derivationPath (direction.map Direction.isBackward)))).find v = .ok found) :
    discoverConnectors v direction =
      .ok ((Subgraph.distinctNodes found).map (Connector.ofNode v.bundle)) := by
  unfold discoverConnectors
  simp only [hpredicate, hfound]
  rfl

/-- **Discovery agrees with the convention for connectors.** From any entry node it succeeds. The nodes that
the search along derivations reaches are different ones, and what is returned are the records of those among
them that are connectors of the direction, in the order of the search. -/
theorem discoverConnectors_exact (b : Bundle) (entry : b.NodeIx) (direction : Option Direction) :
    ∃ path : Subgraph b,
      (Findable.derivationPath (direction.map Direction.isBackward)).find ⟨b, some entry⟩ = .ok [path] ∧
        b.reachFiltered (StepPredicate.alongDerivations (direction.map Direction.isBackward)) entry =
          .ok path.nodes ∧
        path.nodes.Nodup ∧
        discoverConnectors ⟨b, some entry⟩ direction =
          .ok ((path.nodes.filter fun n => b.isConnector n direction).map (Connector.ofNode b)) := by
  obtain ⟨path, hfind, hreached, hnodup⟩ :=
    Findable.find_derivationPath b (direction.map Direction.isBackward) entry
  obtain ⟨predicate, hpredicate, hholds⟩ := exists_connectorPredicate b direction
  refine ⟨path, hfind, hreached, hnodup, ?_⟩
  have hfound : (Findable.fittingNodes (some (.leaf predicate))
        (some (.derivationPath (direction.map Direction.isBackward)))).find ⟨b, some entry⟩ =
      .ok ((path.nodes.filter fun n => b.isConnector n direction).map Subgraph.single) := by
    rw [Findable.find_fittingNodes hfind, Subgraph.distinctNodes_singleton hnodup]
    exact Findable.nodesAmong_eq_ok (v := ⟨b, some entry⟩) hholds path.nodes
  rw [discoverConnectors_eq_ok hpredicate hfound,
    Subgraph.distinctNodes_map_single (hnodup.filter fun n => b.isConnector n direction)]

end ProvenanceTrail
