import ProvenanceTrail.Search.Session
/-!
# Metrics

Events that tell an operator what goes on: one for every visit, one for every search and one for every
request to the service.
-/

namespace ProvenanceTrail

/-- An event. -/
inductive Metric where
  | bundle (outcome : String)
  | search (visited results errors : Nat) (timedOut : Bool)
  | request (path method : String) (status : Nat)
deriving DecidableEq, Repr

namespace Metric

/-- The event for the end of a visit. -/
def ofVisit : Except BranchError Visit → Metric
  | .ok (.redirected _) => .bundle "redirected"
  | .ok (.searched _ found _) => .bundle (if found then "found" else "not_found")
  | .error _ => .bundle "skipped"

/-- The event for the end of a search. -/
def ofReport (r : SearchReport) : Metric :=
  .search r.visited.length r.results.length r.errors.length r.timedOut

/-- The JSON form: the fields of the event. -/
def toJson : Metric → Json
  | .bundle outcome =>
    .object [("message", .string "bundle_metric"), ("metric_type", .string "bundle"),
      ("outcome", .string outcome)]
  | .search visited results errors timedOut =>
    .object [("message", .string "search_metric"), ("metric_type", .string "search"),
      ("visited", Json.ofNat visited), ("results", Json.ofNat results),
      ("errors", Json.ofNat errors), ("timed_out", .bool timedOut)]
  | .request path method status =>
    .object [("message", .string "request_metric"), ("metric_type", .string "request"),
      ("path", .string path), ("method", .string method), ("status", Json.ofNat status)]

end Metric

end ProvenanceTrail
