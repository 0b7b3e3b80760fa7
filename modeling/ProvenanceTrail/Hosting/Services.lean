import ProvenanceTrail.Query.Basic
import ProvenanceTrail.Version.Latest
/-!
# Services that host bundles

Services are told apart by their URI, and a service hosts at most one bundle of a name. A service
answers three kinds of calls: it hands out a bundle with its token, evaluates a query on a bundle, and
picks a version of a bundle. Each call first finds the bundle, and all fail alike when they do not.
-/

namespace ProvenanceTrail

/-- A bundle with the token that was issued for it. -/
structure HostedBundle where
  bundle : Bundle
  token : Option Token

namespace HostedBundle

/-- The JSON form. -/
def toJson (h : HostedBundle) : Json :=
  .object (("bundle", h.bundle.toJson) :: Json.memberIfSome "token" Token.toJson h.token)

/-- The form of a bundle with its token in a text. -/
def form : Form := .record [Form.needed "bundle" BundleDocument.form, Form.spare "token" (.optional Token.form)]

/-- Reads the JSON form. -/
def ofJson? (j : Json) : Option HostedBundle := do
  match ← j.fields? ["bundle", "token"] with
  | [bundle, token] =>
    let bundle ← Json.required? Bundle.ofJson? bundle
    let token ← Json.optional? Token.ofJson? token
    pure ⟨bundle, token⟩
  | _ => none

end HostedBundle

/-- Why a service refused a call. -/
inductive HostingError where
  | unknownService (service : String)
  | bundleNotFound (service : String) (bundle : QualifiedName)
  | unreachable (service : String)
  | query (error : ConditionError)
  | resolution (error : ResolutionError)
deriving DecidableEq, Repr

namespace HostingError

/-- The text of an error. -/
def message : HostingError → String
  | .unknownService service => s!"Unknown service: {service}"
  | .bundleNotFound service bundle => s!"Bundle {bundle} not found at {service}"
  | .unreachable service => s!"Service unreachable: {service}"
  | .query error => s!"Query failed: {error.message}"
  | .resolution error => s!"Version pick failed: {error.message}"

/-- The failure that a caller of a service sees. -/
def toRemote (service : String) (e : HostingError) : RemoteFailure := ⟨service, e.message⟩

end HostingError

/-- Services with the bundles they host, in the order of hosting, and the services that cannot be
reached. -/
structure Services where
  hosted : List (String × HostedBundle)
  unreachable : List String

namespace Services

/-- No service at all. -/
def empty : Services := ⟨[], []⟩

/-- Whether an entry is the bundle of a name at a service. -/
def isEntry (service : String) (id : QualifiedName) (entry : String × HostedBundle) : Bool :=
  entry.1 == service && entry.2.bundle.id == id

/-- Hosts a bundle at a service, in place of one of the same name. -/
def host (s : Services) (service : String) (bundle : HostedBundle) : Services :=
  { s with hosted := s.hosted.filter (fun e => !isEntry service bundle.bundle.id e) ++
      [(service, bundle)] }

/-- Cuts a service off. -/
def cutOff (s : Services) (service : String) : Services :=
  { s with unreachable := s.unreachable ++ [service] }

/-- How many bundles are hosted, over all services. -/
def bundleCount (s : Services) : Nat := s.hosted.length

/-- Finds a bundle at a service. A service exists when it hosts something. -/
def find (s : Services) (service : String) (id : QualifiedName) :
    Except HostingError HostedBundle :=
  if s.unreachable.contains service then .error (.unreachable service)
  else if s.hosted.all fun e => e.1 != service then .error (.unknownService service)
  else
    match s.hosted.find? (isEntry service id) with
    | none => .error (.bundleNotFound service id)
    | some entry => .ok entry.2

/-- Evaluates a query on a bundle of a service. -/
def query (s : Services) (service : String) (request : BundleQueryRequest) :
    Except HostingError BundleQueryResponse :=
  match s.find service request.bundleId with
  | .error e => .error e
  | .ok found =>
    match BundleQuery.ofJson request.queryType request.querySpecification with
    | .error e => .error (.query e)
    | .ok q =>
      match q.eval found.bundle request.startNodeId with
      | .error e => .error (.query e)
      | .ok result => .ok ⟨found.token, result⟩

/-- Picks a version of a bundle of a service. The meta-bundle is looked for at the same service. -/
def pickVersion (s : Services) (service : String) (id : QualifiedName) :
    VersionPreference → Except HostingError QualifiedName
  | .specified => (s.find service id).map fun _ => id
  | .latest =>
    match s.find service id with
    | .error e => .error e
    | .ok found =>
      match found.bundle.metaBundle? with
      | none => .error (.resolution (.missingMetaBundle id))
      | some metaId =>
        match s.find service metaId with
        | .error e => .error e
        | .ok listing =>
          match listing.bundle.latestVersion with
          | .error e => .error (.resolution e)
          | .ok version => .ok (version.getD id)

end Services

/-- An answer with the bundles that were fetched on the way to it, in order. -/
structure Traced (α : Type) where
  fetched : List QualifiedName
  value : α

end ProvenanceTrail
