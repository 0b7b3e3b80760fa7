/-!
# Failed calls

A call to a service or to a token registry that failed, with the text of the failure.
-/

namespace ProvenanceTrail

/-- A failed call: the service that was called and what it answered. -/
structure RemoteFailure where
  service : String
  reason : String
deriving DecidableEq, Repr

namespace RemoteFailure

/-- The text of the error. -/
def message (e : RemoteFailure) : String := s!"Remote call to {e.service} failed: {e.reason}"

end RemoteFailure

end ProvenanceTrail
