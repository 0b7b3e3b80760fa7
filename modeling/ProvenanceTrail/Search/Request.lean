import ProvenanceTrail.Query.Basic
import ProvenanceTrail.Version.Latest
/-!
# Requests for searches
-/

namespace ProvenanceTrail

/-- A request for a search. The start node may be missing in a request that is read; the search then
refuses it. -/
structure SearchRequest where
  bundleId : QualifiedName
  startNodeId : Option QualifiedName
  backward : Bool
  versionPreference : VersionPreference
  validityChecks : List String
  queryType : QueryType
  querySpecification : Json

namespace SearchRequest

/-- A request to search forward, for the specified versions and without checks. -/
def starting (bundle start : QualifiedName) (type : QueryType) (specification : Json) : SearchRequest :=
  ⟨bundle, some start, false, .specified, [], type, specification⟩

/-- The request with a direction. -/
def inDirection (r : SearchRequest) (d : Direction) : SearchRequest :=
  { r with backward := d.isBackward }

/-- The request with a preference for versions. -/
def withVersionPreference (r : SearchRequest) (p : VersionPreference) : SearchRequest :=
  { r with versionPreference := p }

/-- The request with checks. -/
def withValidityChecks (r : SearchRequest) (ids : List String) : SearchRequest :=
  { r with validityChecks := ids }

/-- The direction of the search. -/
def direction (r : SearchRequest) : Direction := .ofBackward r.backward

/-- The JSON form. -/
def toJson (r : SearchRequest) : Json :=
  .object
    [("bundleId", r.bundleId.toJson),
      ("startNodeId", Json.ofOption QualifiedName.toJson r.startNodeId),
      ("backward", .bool r.backward), ("versionPreference", r.versionPreference.toJson),
      ("validityChecks", .array (r.validityChecks.map .string)),
      ("queryType", r.queryType.toJson), ("querySpecification", r.querySpecification)]

/-- Reads the JSON form. -/
def ofJson? (j : Json) : Option SearchRequest := do
  match ← j.fields? ["bundleId", "startNodeId", "backward", "versionPreference", "validityChecks",
    "queryType", "querySpecification"] with
  | [bundle, start, backward, preference, checks, type, specification] =>
    let bundle ← Json.required? QualifiedName.ofJson? bundle
    let start ← Json.optional? QualifiedName.ofJson? start
    let backward ← Json.defaulted? Json.bool? false backward
    let preference ← Json.defaulted? VersionPreference.ofJson? .specified preference
    let checks ← Json.defaulted? (Json.list? Json.string?) [] checks
    let type ← Json.required? QueryType.ofJson? type
    let specification := (specification.map Json.normalize).getD .null
    pure ⟨bundle, start, backward, preference, checks, type, specification⟩
  | _ => none

end SearchRequest

end ProvenanceTrail
