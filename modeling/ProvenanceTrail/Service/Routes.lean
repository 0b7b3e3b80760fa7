import ProvenanceTrail.Service.Form
import ProvenanceTrail.Service.Headers
import ProvenanceTrail.Service.Startup
/-!
# Requests and replies

The service answers requests to a fixed set of paths. A request with a body must say that it is JSON,
and the body must start with a JSON value of the form that the path asks for; else the request is
refused by its status alone. What goes wrong after that is told in the reply.
-/

namespace ProvenanceTrail

/-- A request to the service. -/
structure Request where
  method : String
  path : String
  headers : Headers
  body : String

/-- The path of a target, up to its query. A target that does not start with a slash has none. -/
def Request.pathOf (target : String) : String :=
  let cs := target.toList.takeWhile fun c => c != '?' && c != '#'
  if cs.head? == some '/' then String.ofList cs else ""

/-- A reply: its status, and its body if it has one. -/
structure Reply where
  status : Nat
  body : Option Json

namespace Reply

/-- A reply without a body. -/
def bare (status : Nat) : Reply := ⟨status, none⟩

/-- A reply that all went well. -/
def ok (body : Json) : Reply := ⟨200, some body⟩

/-- A reply that tells what went wrong, and with which request. -/
def failure (status : Nat) (code message : String) (requestId : String) (details : Option String) :
    Reply :=
  ⟨status, some (.object
    ([("error", .string message), ("code", .string code), ("correlation_id", .string requestId)] ++
      Json.memberIfSome "details" .string details))⟩

/-- The reply for an error of hosting. -/
def ofHostingError (requestId : String) (e : HostingError) : Reply :=
  let (status, code) := match e with
    | .unknownService _ => (404, "BUNDLE_NOT_FOUND")
    | .bundleNotFound _ _ => (404, "BUNDLE_NOT_FOUND")
    | .query error =>
      (match error with
        | .startNodeNotFound _ _ => 404
        | _ => 400, error.code)
    | .resolution _ => (422, "RESOLUTION_ERROR")
    | .unreachable _ => (503, "UNAVAILABLE")
  failure status code e.message requestId none

end Reply

/-- What a path serves. -/
inductive Route where
  | search
  | searchSuccessors
  | searchPredecessors
  | bundle
  | bundleQuery
  | pickVersion
  | validityChecks
  | queryTypes
  | health
  | liveness
  | readiness
deriving DecidableEq, Repr

namespace Route

/-- The paths. -/
def paths : List (String × Route) :=
  [("/api/search", .search), ("/api/searchSuccessors", .searchSuccessors),
    ("/api/searchPredecessors", .searchPredecessors), ("/api/bundle", .bundle),
    ("/api/bundleQuery", .bundleQuery), ("/api/pickVersion", .pickVersion),
    ("/api/getValidityChecks", .validityChecks), ("/api/getQueryTypes", .queryTypes),
    ("/health", .health), ("/health/live", .liveness), ("/health/ready", .readiness)]

/-- The form of the body that a path takes, if it takes one. -/
def form? : Route → Option Form
  | .search | .searchSuccessors | .searchPredecessors => some .search
  | .bundle => some .bundle
  | .bundleQuery => some .bundleQuery
  | .pickVersion => some .pickVersion
  | _ => none

/-- Whether a path takes a body. -/
def takesBody (r : Route) : Bool := r.form?.isSome

/-- Whether a path answers a method. What can be got can also be asked for without its body. -/
def answers (r : Route) (method : String) : Bool :=
  if r.takesBody then method == "POST" else method == "GET" || method == "HEAD"

end Route

/-- A request for one bundle. -/
def bundleIdOfJson? (j : Json) : Option QualifiedName := do
  match ← j.fields? ["bundleId"] with
  | [id] => Json.required? QualifiedName.ofJson? id
  | _ => none

/-- A request for a version of a bundle; nothing said asks for the bundle itself. -/
def versionPickOfJson? (j : Json) : Option (QualifiedName × VersionPreference) := do
  match ← j.fields? ["bundleId", "versionPreference"] with
  | [id, preference] =>
    let id ← Json.required? QualifiedName.ofJson? id
    let preference ← Json.defaulted? VersionPreference.ofJson? .specified preference
    pure (id, preference)
  | _ => none

namespace Service

/-- The version of the service. -/
def version : String := "0.1.0"

/-- The state of the service in numbers. -/
def health (s : Service) : Json :=
  let cache := s.engine.verifier.cache.map fun c =>
    Json.object [("len", Json.ofNat c.size), ("cap", Json.ofNat c.capacity)]
  let validity := s.engine.federation.validity
  .object
    ([("status", .string "healthy"), ("version", .string version),
      ("hosted_bundles", Json.ofNat s.bundles.bundleCount),
      ("federation_routes", Json.ofNat s.engine.federation.table.size),
      ("validity_checks", .array (validity.ids.map .string)),
      ("validity_fingerprint", .string validity.fingerprint)] ++
      Json.memberIfSome "verdict_cache" id cache)

/-- Whether the service is of use: it hosts bundles or knows others that do. -/
def readiness (s : Service) : Reply :=
  let ready := !(s.engine.federation.table.isEmpty && s.bundles.bundleCount == 0)
  let details : Json :=
    if ready then .null else .string "No federation routes and no hosted bundles"
  ⟨if ready then 200 else 503, some (.object [("ready", .bool ready), ("details", details)])⟩

/-- Runs a search. -/
def search (s : Service) (requestId : String) (r : SearchRequest) : Reply × Service :=
  match s.engine.search r with
  | (.ok report, engine) => (.ok report.toJson, { s with engine := engine })
  | (.error e, engine) =>
    (.failure 400 e.code e.message requestId (some r.bundleId.uri), { s with engine := engine })

/-- Serves a path without a body. -/
def get (s : Service) : Route → Reply
  | .validityChecks => .ok (.array (s.engine.federation.validity.ids.map .string))
  | .queryTypes => .ok (.array (QueryType.all.map QueryType.toJson))
  | .health => .ok s.health
  | .liveness => .ok (.object [("status", .string "alive")])
  | .readiness => s.readiness
  | _ => .bare 405

/-- Serves a path with a body of the right form. -/
def post (s : Service) (requestId : String) (body : Json) (route : Route) :
    Option (Reply × Service) :=
  let hosted (answer : Except HostingError Json) : Reply × Service :=
    match answer with
    | .ok j => (.ok j, s)
    | .error e => (.ofHostingError requestId e, s)
  match route with
  | .search => (SearchRequest.ofJson? body).map fun r => s.search requestId r
  | .searchSuccessors =>
    (SearchRequest.ofJson? body).map fun r => s.search requestId (r.inDirection .forward)
  | .searchPredecessors =>
    (SearchRequest.ofJson? body).map fun r => s.search requestId (r.inDirection .backward)
  | .bundle => (bundleIdOfJson? body).map fun id =>
    hosted ((s.bundles.find localName id).map HostedBundle.toJson)
  | .bundleQuery => (BundleQueryRequest.ofJson? body).map fun r =>
    hosted ((s.bundles.query localName r).map BundleQueryResponse.toJson)
  | .pickVersion => (versionPickOfJson? body).map fun r =>
    hosted ((s.bundles.pickVersion localName r.1 r.2).map fun id =>
      .object [("bundleId", id.toJson)])
  | _ => none

/-- Serves a request for a route that answers its method. -/
def serve (s : Service) (requestId : String) (r : Request) (route : Route) : Reply × Service :=
  match route.form? with
  | none => (s.get route, s)
  | some form =>
    if !Headers.saysJson r.headers then (Reply.bare 415, s)
    else
      match form.hold r.body with
      | .error .malformed => (Reply.bare 400, s)
      | .error .unfit => (Reply.bare 422, s)
      | .ok lexemes =>
        match Json.readFrom [] .value lexemes with
        | none => (Reply.bare 400, s)
        | some (body, _) => (s.post requestId body route).getD (Reply.bare 422, s)

/-- Answers a request that is known by an id. -/
def respond (s : Service) (requestId : String) (r : Request) : Reply × Service :=
  let (reply, s) := match Text.meaning? Route.paths r.path with
    | none => (Reply.bare 404, s)
    | some route => if route.answers r.method then s.serve requestId r route else (Reply.bare 405, s)
  let reply := if r.method == "HEAD" then { reply with body := none } else reply
  (reply, { s with engine := s.engine.note (.request r.path r.method reply.status) })

end Service

end ProvenanceTrail
