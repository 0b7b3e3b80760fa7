import ProvenanceTrail.Condition.Bundle
import ProvenanceTrail.Json.Printer
/-!
# Reading conditions

A condition is a JSON object whose `type` is a tag. Five tags are connectives and belong to every
family; each family of leaves has tags of its own. A field that is absent or `null` is missing, which
is no error here. A field that is present is read at once, and so are the conditions inside it.
-/

namespace ProvenanceTrail

/-- The members of a JSON object. -/
abbrev Members := List (String × Json)

namespace Members

/-- The value of a field; `null` counts as missing. -/
def field? (members : Members) (name : String) : Option Json :=
  match Json.lookup name members with
  | some .null => none
  | v => v

theorem sizeOf_lookup {members : Members} {name : String} {v : Json}
    (h : Json.lookup name members = some v) : sizeOf v < sizeOf (Json.object members) := by
  unfold Json.lookup at h
  obtain ⟨m, hm, rfl⟩ := Option.map_eq_some_iff.1 h
  have hmem : m ∈ members := List.mem_reverse.1 (List.mem_of_find?_eq_some hm)
  have h1 := List.sizeOf_lt_of_mem hmem
  have h2 : sizeOf m.2 < sizeOf m := by
    cases m
    simp only [Prod.mk.sizeOf_spec]
    omega
  simp only [Json.object.sizeOf_spec]
  omega

theorem sizeOf_field? {members : Members} {name : String} {v : Json}
    (h : members.field? name = some v) : sizeOf v < sizeOf (Json.object members) := by
  unfold field? at h
  split at h
  · cases h
  · exact sizeOf_lookup h

/-- The error for a value of the wrong type. -/
def invalid (variant name : String) (v : Json) : ConditionError :=
  .configuration (.invalidValue variant name v.canonical)

/-- A field with a text. -/
def string (members : Members) (variant name : String) : Except ConditionError (Option String) :=
  match members.field? name with
  | none => .ok none
  | some (.string s) => .ok (some s)
  | some v => .error (invalid variant name v)

/-- A field with a truth value. -/
def bool (members : Members) (variant name : String) : Except ConditionError (Option Bool) :=
  match members.field? name with
  | none => .ok none
  | some (.bool b) => .ok (some b)
  | some v => .error (invalid variant name v)

/-- A field with a word that `meaning` knows. -/
def word {α : Type} (members : Members) (variant name : String) (meaning : String → Option α)
    (fault : String → ConditionFault) : Except ConditionError (Option α) := do
  match ← members.string variant name with
  | none => pure none
  | some s =>
    match meaning s with
    | none => throw (.configuration (fault s))
    | some a => pure (some a)

/-- A field with a pattern. -/
def pattern (members : Members) (variant name : String) :
    Except ConditionError (Option Pattern) :=
  members.word variant name Pattern.ofSource? .invalidPattern

/-- A field with a timestamp. -/
def timestamp (members : Members) (variant name : String) :
    Except ConditionError (Option Timestamp) :=
  members.word variant name Timestamp.ofStrictText? (.invalidTimestamp variant name)

/-- A field whose value is read by `read`, which may rely on the value being smaller than the object
that holds it. -/
def nested {α : Type} (members : Members) (name : String)
    (read : (v : Json) → sizeOf v < sizeOf (Json.object members) → Except ConditionError α) :
    Except ConditionError (Option α) :=
  match h : members.field? name with
  | none => .ok none
  | some v => (read v (sizeOf_field? h)).map some

/-- A field with a list whose items are read by `read`. -/
def nestedList {α : Type} (members : Members) (variant name : String)
    (read : (v : Json) → sizeOf v < sizeOf (Json.object members) → Except ConditionError α) :
    Except ConditionError (Option (List α)) :=
  match h : members.field? name with
  | none => .ok none
  | some (.array items) =>
    have smaller (v : Json) (hv : v ∈ items) : sizeOf v < sizeOf (Json.object members) := by
      have h1 := sizeOf_field? h
      have h2 := List.sizeOf_lt_of_mem hv
      simp at h1 ⊢
      omega
    (items.attach.mapM fun item => read item.1 (smaller item.1 item.2)).map some
  | some v => .error (invalid variant name v)

/-- The tag of a condition. -/
def tag (members : Members) : Except ConditionError String :=
  match Json.lookup "type" members with
  | some (.string s) => .ok s
  | some v => .error (.unsupportedType v.canonical)
  | none => .error (.unsupportedType "<missing type>")

end Members

/-- The error for a value that is no object. -/
def ConditionError.notAnObject (v : Json) : ConditionError :=
  .configuration (.notAnObject v.canonical)

/-- Reads a condition whose leaves are read by `leaf`; a leaf `none` means that the tag belongs to no
leaf of the family. -/
def Condition.ofJson {P : Type} (leaf : String → Members → Except ConditionError (Option P))
    (j : Json) : Except ConditionError (Condition P) :=
  match j with
  | .object members => do
    let tag ← Members.tag members
    let operand (name : String) : Except ConditionError (Option (Condition P)) :=
      Members.nested members name fun v _ => Condition.ofJson leaf v
    let operands : Except ConditionError (List (Condition P)) :=
      (Members.nestedList members tag "conditions" fun v _ => Condition.ofJson leaf v).map (·.getD [])
    match tag with
    | "AllTrue" => return .allTrue (← operands)
    | "AnyTrue" => return .anyTrue (← operands)
    | "Not" => return .not (← operand "condition")
    | "Negation" => return .not (← operand "condition")
    | "Either" => return .either (← operand "first") (← operand "second")
    | "Implication" => return .implication (← operand "premise") (← operand "consequence")
    | tag =>
      match ← leaf tag members with
      | some predicate => return .leaf predicate
      | none => throw (.unsupportedType tag)
  | v => .error (.notAnObject v)
termination_by sizeOf j
decreasing_by all_goals (rename_i h; simpa using h)

namespace NodePredicate

/-- The attribute a predicate speaks of. -/
def attributeUri (members : Members) (tag : String) : Except ConditionError (Option String) :=
  members.string tag "attributeNameUri"

/-- A constraint on names. -/
def nameConstraint (members : Members) (tag : String) : Except ConditionError ValueConstraint :=
  return .name (← members.pattern tag "uriRegex")

/-- A constraint on texts. -/
def textConstraint (members : Members) (tag : String) : Except ConditionError ValueConstraint :=
  return .text (← members.pattern tag "langRegex") (← members.pattern tag "valueRegex")

/-- A constraint on times. -/
def timeConstraint (members : Members) (tag : String) : Except ConditionError ValueConstraint :=
  return .time (← members.timestamp tag "isEqual") (← members.timestamp tag "isBefore")
    (← members.timestamp tag "isAfter")

/-- The kind that a predicate speaks of. -/
def kind (members : Members) (tag : String) : Except ConditionError (Option NodeKind) :=
  members.word tag "kind" NodeKind.ofWord? (.unknownNodeKind tag)

/-- A constraint of the kind that the field `kind` names. -/
def constraintByKind (members : Members) (tag : String) :
    Except ConditionError (Option ValueConstraint) := do
  match ← members.string tag "kind" with
  | none => return none
  | some "QualifiedName" => return some (← nameConstraint members tag)
  | some "LangString" => return some (← textConstraint members tag)
  | some "Timestamp" => return some (← timeConstraint members tag)
  | some other => throw (.configuration (.unknownValueKind tag other))

/-- Reads a predicate of a node. -/
def ofMembers (tag : String) (members : Members) :
    Except ConditionError (Option NodePredicate) := do
  match tag with
  | "HasId" => return some (.hasId (← members.pattern tag "idUriRegex"))
  | "HasAttr" => return some (.hasAttribute (← attributeUri members tag))
  | "HasAttrValue" =>
    let constraint ← constraintByKind members tag
    return some (.hasAttributeValue (← attributeUri members tag) constraint)
  | "HasAttrQualifiedNameValue" =>
    let uri ← attributeUri members tag
    return some (.hasAttributeValue uri (some (← nameConstraint members tag)))
  | "HasAttrLangStringValue" =>
    let uri ← attributeUri members tag
    return some (.hasAttributeValue uri (some (← textConstraint members tag)))
  | "HasAttrTimestampValue" =>
    let uri ← attributeUri members tag
    return some (.hasAttributeValue uri (some (← timeConstraint members tag)))
  | "IsKind" => return some (.isKind (← kind members tag))
  | "IsNotKind" => return some (.isNotKind (← kind members tag))
  | _ => return none

end NodePredicate

/-- Reads a condition on nodes. -/
def Condition.nodeOfJson : Json → Except ConditionError (Condition NodePredicate) :=
  Condition.ofJson NodePredicate.ofMembers

namespace EdgePredicate

/-- Reads a predicate of an edge. -/
def ofMembers (tag : String) (members : Members) :
    Except ConditionError (Option EdgePredicate) := do
  let relation := members.word tag "relation" RelationKind.ofWord? (.unknownRelation tag)
  match tag with
  | "IsRelation" => return some (.isRelation (← relation))
  | "IsNotRelation" => return some (.isNotRelation (← relation))
  | _ => return none

end EdgePredicate

/-- Reads a condition on edges. -/
def Condition.edgeOfJson : Json → Except ConditionError (Condition EdgePredicate) :=
  Condition.ofJson EdgePredicate.ofMembers

namespace StepPredicate

/-- Reads a predicate of a step. -/
def ofMembers (tag : String) (members : Members) :
    Except ConditionError (Option StepPredicate) := do
  match tag with
  | "EdgeToNodeCondition" =>
    let edge ← members.nested "edgeCondition" fun v _ => Condition.edgeOfJson v
    let node ← members.nested "nodeCondition" fun v _ => Condition.nodeOfJson v
    return some (.edgeToNode edge node (← members.bool tag "nodeIsEffect"))
  | "DerivationPathCondition" => return some (.derivationPath (← members.bool tag "backward"))
  | _ => return none

end StepPredicate

/-- Reads a condition on steps. -/
def Condition.stepOfJson : Json → Except ConditionError (Condition StepPredicate) :=
  Condition.ofJson StepPredicate.ofMembers

namespace Findable

/-- The tags of searches. -/
def tags : List String :=
  ["FittingNodes", "FittingLinearSubgraphs", "FilteredSubgraphs", "DerivationPathFromStartNode",
    "StartNode", "WholeGraph"]

/-- Reads a search. -/
def ofJson (j : Json) : Except ConditionError Findable :=
  match j with
  | .object members => do
    let tag ← Members.tag members
    let startsIn := Members.nested members "startsIn" fun v _ => ofJson v
    match tag with
    | "FittingNodes" =>
      let condition ← Members.nested members "nodeCondition" fun v _ => Condition.nodeOfJson v
      return .fittingNodes condition (← startsIn)
    | "FittingLinearSubgraphs" =>
      let parts ← Members.nestedList members tag "graphParts" fun v _ => Condition.stepOfJson v
      return .linearPaths parts (← startsIn)
    | "FilteredSubgraphs" =>
      let filter ← Members.nested members "filter" fun v _ => Condition.stepOfJson v
      return .filtered filter (← startsIn)
    | "DerivationPathFromStartNode" => return .derivationPath (← Members.bool members tag "backward")
    | "StartNode" => return .startNode
    | "WholeGraph" => return .wholeGraph
    | other => throw (.unsupportedType other)
  | v => .error (.notAnObject v)
termination_by sizeOf j
decreasing_by all_goals (rename_i h; simpa using h)

end Findable

namespace Countable

/-- Reads a measure: a constant, or a search. -/
def ofJson (j : Json) : Except ConditionError Countable :=
  match j with
  | .object members => do
    match ← Members.tag members with
    | "CountConstant" =>
      match Members.field? members "count" with
      | none => return .constant none
      | some v =>
        match Json.natural? v with
        | some n => return .constant (some n)
        | none => throw (Members.invalid "CountConstant" "count" v)
    | _ => return .size (← Findable.ofJson j)
  | v => .error (.notAnObject v)

end Countable

namespace BundlePredicate

/-- Reads a predicate of a bundle. -/
def ofMembers (tag : String) (members : Members) :
    Except ConditionError (Option BundlePredicate) := do
  match tag with
  | "AllNodes" =>
    return some (.allNodes (← members.nested "condition" fun v _ => Condition.nodeOfJson v))
  | "CountComparisonCondition" =>
    let comparison ←
      members.word tag "comparisonResult" Comparison.ofWord? (.unknownComparison tag)
    let first ← members.nested "first" fun v _ => Countable.ofJson v
    let second ← members.nested "second" fun v _ => Countable.ofJson v
    return some (.countComparison first comparison second)
  | _ => return none

end BundlePredicate

/-- Reads a condition on bundles. -/
def Condition.bundleOfJson : Json → Except ConditionError (Condition BundlePredicate) :=
  Condition.ofJson BundlePredicate.ofMembers

end ProvenanceTrail
