import ProvenanceTrail.Graph.Name
/-!
# Errors of conditions

What can go wrong when a condition is read or evaluated. Values of the payload appear in errors as
their compact JSON text.
-/

namespace ProvenanceTrail

/-- Why a condition is ill-formed. -/
inductive ConditionFault where
  /-- a field that evaluation needs is missing -/
  | missingField (variant field : String)
  /-- a conjunction has no members -/
  | emptyConjunction
  /-- a constraint on texts constrains neither language nor text -/
  | unconstrainedText
  /-- a constraint on times names no instant -/
  | unconstrainedTime
  /-- a condition is not a JSON object -/
  | notAnObject (value : String)
  /-- a field has a value of the wrong type -/
  | invalidValue (variant field value : String)
  /-- the kind of an attribute constraint is unknown -/
  | unknownValueKind (variant kind : String)
  /-- the kind of a node is unknown -/
  | unknownNodeKind (variant kind : String)
  /-- a relation is unknown -/
  | unknownRelation (variant relation : String)
  /-- a comparison is unknown -/
  | unknownComparison (variant comparison : String)
  /-- a pattern is no regular expression -/
  | invalidPattern (source : String)
  /-- a timestamp cannot be read -/
  | invalidTimestamp (variant field text : String)
  /-- the direction of a connector query is unknown -/
  | invalidDirection (value : String)
deriving DecidableEq, Repr

namespace ConditionFault

/-- The text of a fault. -/
def message : ConditionFault → String
  | .missingField variant field => s!"Value of {field} cannot be null in {variant}"
  | .emptyConjunction => "AllTrue requires a non-empty list of conditions"
  | .unconstrainedText =>
    "At least one of langRegex or valueRegex must be set in HasAttrLangStringValue"
  | .unconstrainedTime =>
    "At least one of isEqual, isBefore or isAfter must be set in HasAttrTimestampValue"
  | .notAnObject value => s!"Condition must be a JSON object, got {value}"
  | .invalidValue variant field value => s!"Invalid value of {field} in {variant}: {value}"
  | .unknownValueKind variant kind => s!"Unknown attribute value kind '{kind}' in {variant}"
  | .unknownNodeKind variant kind => s!"Unknown node kind '{kind}' in {variant}"
  | .unknownRelation variant relation => s!"Unknown relation '{relation}' in {variant}"
  | .unknownComparison variant comparison => s!"Unknown comparison '{comparison}' in {variant}"
  | .invalidPattern source => s!"Invalid regex '{source}'"
  | .invalidTimestamp variant field text => s!"Invalid timestamp '{text}' for {field} in {variant}"
  | .invalidDirection value => s!"Invalid connector direction: {value}"

end ConditionFault

/-- An error of reading or evaluating a condition. -/
inductive ConditionError where
  | configuration (fault : ConditionFault)
  /-- no condition has this tag -/
  | unsupportedType (tag : String)
  /-- the node at which a bundle is to be entered is not part of it -/
  | startNodeNotFound (node bundle : QualifiedName)
deriving DecidableEq, Repr

namespace ConditionError

/-- The text of an error. -/
def message : ConditionError → String
  | .configuration fault => s!"Configuration error: {fault.message}"
  | .unsupportedType tag => s!"Unsupported condition type: {tag}"
  | .startNodeNotFound node bundle => s!"Start node {node} not found in bundle {bundle}"

/-- The stable code of an error. -/
def code : ConditionError → String
  | .configuration _ => "CONFIGURATION_ERROR"
  | .unsupportedType _ => "UNSUPPORTED_CONDITION_TYPE"
  | .startNodeNotFound _ _ => "START_NODE_NOT_FOUND"

/-- The error for a field that evaluation needs and that is missing. -/
def missing (variant field : String) : ConditionError :=
  .configuration (.missingField variant field)

end ConditionError

end ProvenanceTrail
