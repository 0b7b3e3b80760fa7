import ProvenanceTrail.Query.Basic
import ProvenanceTrail.Validity.Outcome
/-!
# Reports of searches

A search reports the answers it found, what became of every bundle it came across, and the errors that
ended branches. The report lists bundles by URI; of two names with one URI the greater one is shown.
-/

namespace ProvenanceTrail

/-- What became of a bundle. -/
inductive VisitOutcome where
  /-- the query has an answer there -/
  | found
  /-- the answer is empty -/
  | notFound
  /-- an error ended the branch -/
  | skipped (code message : String)
  /-- another version was searched in its place -/
  | redirected (target : QualifiedName)
deriving DecidableEq, Repr

namespace VisitOutcome

/-- Whether the bundle was skipped with a code. -/
def isSkippedWith (expected : String) : VisitOutcome → Bool
  | .skipped code _ => code == expected
  | _ => false

/-- The JSON form. -/
def toJson : VisitOutcome → Json
  | .found => .object [("state", .string "found")]
  | .notFound => .object [("state", .string "notFound")]
  | .skipped code message =>
    .object [("state", .string "skipped"), ("code", .string code), ("message", .string message)]
  | .redirected target => .object [("state", .string "redirected"), ("to", target.toJson)]

end VisitOutcome

/-- The answer of one bundle. -/
structure FoundResult where
  bundleId : QualifiedName
  entryNodeId : QualifiedName
  token : Option Token
  result : QueryResult
  integrity : Bool
  validityChecks : List CheckOutcome
  pathIntegrity : Bool
  pathValidityChecks : List CheckOutcome
deriving DecidableEq, Repr

namespace FoundResult

/-- The JSON form. -/
def toJson (r : FoundResult) : Json :=
  .object
    ([("bundleId", r.bundleId.toJson), ("entryNodeId", r.entryNodeId.toJson)] ++
      Json.memberIfSome "token" Token.toJson r.token ++
      [("result", r.result.toJson), ("integrity", .bool r.integrity),
        ("validityChecks", .array (r.validityChecks.map CheckOutcome.toJson)),
        ("pathIntegrity", .bool r.pathIntegrity),
        ("pathValidityChecks", .array (r.pathValidityChecks.map CheckOutcome.toJson))])

end FoundResult

/-- Outcomes by bundle: names ascending and different. -/
abbrev Visits := List (QualifiedName × VisitOutcome)

namespace Visits

/-- Records the outcome of a bundle, in place of an earlier one. -/
def insert (id : QualifiedName) (outcome : VisitOutcome) : Visits → Visits
  | [] => [(id, outcome)]
  | (other, old) :: rest =>
    if id = other then (id, outcome) :: rest
    else if id.blt other then (id, outcome) :: (other, old) :: rest
    else (other, old) :: insert id outcome rest

/-- The outcome of a bundle. -/
def find? (id : QualifiedName) (visits : Visits) : Option VisitOutcome :=
  (List.find? (fun v => v.1 == id) visits).map (·.2)

/-- Whether a bundle has an outcome. -/
def has (id : QualifiedName) (visits : Visits) : Bool := (find? id visits).isSome

/-- The JSON form: an object with the bundles' URIs as keys. -/
def toJson (visits : Visits) : Json :=
  .object (Json.sortMembers (visits.map fun v => (v.1.uri, v.2.toJson)))

end Visits

/-- What a search reports. -/
structure SearchReport where
  results : List FoundResult
  visited : Visits
  errors : List String
  timedOut : Bool

namespace SearchReport

/-- What became of a bundle. -/
def outcome? (r : SearchReport) (id : QualifiedName) : Option VisitOutcome :=
  Visits.find? id r.visited

/-- The answers of a bundle. -/
def resultsFrom (r : SearchReport) (id : QualifiedName) : List FoundResult :=
  r.results.filter fun result => result.bundleId == id

/-- The JSON form. -/
def toJson (r : SearchReport) : Json :=
  .object
    [("results", .array (r.results.map FoundResult.toJson)), ("visited", Visits.toJson r.visited),
      ("errors", .array (r.errors.map .string)), ("timedOut", .bool r.timedOut)]

end SearchReport

end ProvenanceTrail
