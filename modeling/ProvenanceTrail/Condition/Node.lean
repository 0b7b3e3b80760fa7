import ProvenanceTrail.Condition.Basic
import ProvenanceTrail.Graph.Node
import ProvenanceTrail.Regex.Pattern
/-!
# Predicates of nodes and edges

What a condition can ask of a single node: its id, its kind, its attributes and their values; and of a
single edge: its relations. A value of another kind than the constraint speaks of never satisfies it.
-/

namespace ProvenanceTrail

/-- A constraint on one value of an attribute. All parts that are given must hold. -/
inductive ValueConstraint where
  /-- a name whose URI matches -/
  | name (uri : Option Pattern)
  /-- a text whose language and content match -/
  | text (lang value : Option Pattern)
  /-- a time at, before or after given instants -/
  | time (equal before after : Option Timestamp)

namespace ValueConstraint

/-- The name of the constraint in error texts. -/
def variant : ValueConstraint → String
  | .name _ => "HasAttrQualifiedNameValue"
  | .text _ _ => "HasAttrLangStringValue"
  | .time _ _ _ => "HasAttrTimestampValue"

/-- What a constraint lacks, if it constrains nothing. -/
def fault? : ValueConstraint → Option ConditionError
  | .name none => some (.missing "HasAttrQualifiedNameValue" "uriRegex")
  | .text none none => some (.configuration .unconstrainedText)
  | .time none none none => some (.configuration .unconstrainedTime)
  | _ => none

/-- Whether a value satisfies the constraint. A text without a language satisfies no constraint on the
language. -/
def admits : ValueConstraint → AttributeValue → Bool
  | .name (some p), .qualifiedName n => p.accepts n.uri
  | .text lang value, .langString content tag =>
    (match lang, tag with
      | none, _ => true
      | some p, some tag => p.accepts tag
      | some _, none => false) && value.all fun p => p.accepts content
  | .text none value, .string content => value.all fun p => p.accepts content
  | .time equal before after, .timestamp t =>
    equal.all (fun e => t.sameInstant e) && before.all (fun e => t.isBefore e) &&
      after.all fun e => e.isBefore t
  | _, _ => false

end ValueConstraint

/-- A predicate of a node. -/
inductive NodePredicate where
  /-- the URI of the id matches -/
  | hasId (uri : Option Pattern)
  /-- some value of the attribute is present -/
  | hasAttribute (attributeUri : Option String)
  /-- some value of the attribute satisfies the constraint -/
  | hasAttributeValue (attributeUri : Option String) (constraint : Option ValueConstraint)
  /-- the node is of the kind -/
  | isKind (kind : Option NodeKind)
  /-- the node is not of the kind -/
  | isNotKind (kind : Option NodeKind)

namespace NodePredicate

/-- Evaluates the predicate. What it lacks is an error. -/
def eval (n : Node) : NodePredicate → Except ConditionError Bool
  | .hasId none => .error (.missing "HasId" "idUriRegex")
  | .hasId (some p) => .ok (p.accepts n.id.uri)
  | .hasAttribute none => .error (.missing "HasAttr" "attributeNameUri")
  | .hasAttribute (some uri) => .ok ((n.values uri).any AttributeValue.isPresent)
  | .hasAttributeValue _ none => .error (.missing "HasAttrValue" "kind")
  | .hasAttributeValue none (some c) => .error (.missing c.variant "attributeNameUri")
  | .hasAttributeValue (some uri) (some c) =>
    match c.fault? with
    | some fault => .error fault
    | none => .ok ((n.values uri).any c.admits)
  | .isKind none => .error (.missing "IsKind" "kind")
  | .isKind (some k) => .ok (n.kind == k)
  | .isNotKind none => .error (.missing "IsNotKind" "kind")
  | .isNotKind (some k) => .ok (n.kind != k)

/-- The predicate that a name among the values of an attribute has a URI that matches; `none` when the
source is no regular expression. -/
def hasNameValue? (attributeUri source : String) : Option NodePredicate :=
  (Pattern.ofSource? source).map fun p => .hasAttributeValue (some attributeUri) (some (.name p))

end NodePredicate

/-- Evaluates a condition at a node. -/
def Condition.testNode (n : Node) (c : Condition NodePredicate) : Except ConditionError Bool :=
  c.test (NodePredicate.eval n)

end ProvenanceTrail
