import ProvenanceTrail.Federation.Table
import ProvenanceTrail.Search.Frontier
import ProvenanceTrail.Trust.Verifier
import ProvenanceTrail.Validity.Registry
/-!
# Errors of searches

A request can be refused as a whole. Once a search runs, an error ends only the branch in which it
arises.
-/

namespace ProvenanceTrail

/-- Why a request is refused. -/
inductive SearchError where
  | missingStartNode
  | invalidQuery (error : ConditionError)
  | unknownCheck (error : UnknownCheck)
  | layout (error : LayoutError)
deriving DecidableEq, Repr

namespace SearchError

/-- The text of an error. -/
def message : SearchError → String
  | .missingStartNode => "Search request names no start node"
  | .invalidQuery error => s!"Invalid query: {error.message}"
  | .unknownCheck error => error.message
  | .layout error => error.message

/-- The stable code of an error. -/
def code : SearchError → String
  | .missingStartNode => "MISSING_START_NODE"
  | .invalidQuery error => error.code
  | .unknownCheck _ => "UNKNOWN_VALIDITY_CHECK"
  | .layout _ => "INVARIANT_ERROR"

end SearchError

/-- Why a branch of a search ended. -/
inductive BranchError where
  | unroutable (error : UnroutableBundle)
  | resolution (error : ResolutionError)
  | integrity (error : IntegrityError)
  | remote (failure : RemoteFailure)
  | query (error : ConditionError)
  /-- no further bundle may be visited -/
  | visitLimit (limit : Nat)
deriving DecidableEq, Repr

namespace BranchError

/-- The text of an error. -/
def message : BranchError → String
  | .unroutable error => error.message
  | .resolution error => error.message
  | .integrity error => error.message
  | .remote failure => failure.message
  | .query error => s!"Query evaluation failed: {error.message}"
  | .visitLimit limit => s!"Visit limit of {limit} bundles reached"

/-- The stable code of an error. -/
def code : BranchError → String
  | .unroutable _ => "UNROUTABLE_BUNDLE"
  | .resolution _ => "RESOLUTION_ERROR"
  | .integrity _ => "INTEGRITY_ERROR"
  | .remote _ => "REMOTE_CALL_ERROR"
  | .query _ => "QUERY_ERROR"
  | .visitLimit _ => "MAX_VISITED"

end BranchError

end ProvenanceTrail
