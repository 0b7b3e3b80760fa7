import ProvenanceTrail.Search.Request
import ProvenanceTrail.Search.Session
import ProvenanceTrail.Search.Settings
import ProvenanceTrail.Version.Resolve
/-!
# Branches

What a visit does outside the session. First the reference is resolved to a version; then that version
is fetched, unless it was fetched on the way, and judged: it is entered where the connector says, its
integrity and validity are established, the query is evaluated, and its connectors lead to the next
items.
-/

namespace ProvenanceTrail

/-- What searches work with: services, routes to them, checks and settings. -/
structure Federation where
  services : Services
  table : FederationTable
  validity : ValidityRegistry
  settings : SearchSettings

/-- What one search is after. -/
structure SearchPlan where
  query : BundleQuery
  direction : Direction
  preference : VersionPreference
  checks : List ValidityCheck

/-- Where the bundle of an item is: the version that the reference leads to, the service of the
referenced bundle, and the version itself if it was fetched on the way. -/
structure Located where
  bundleId : QualifiedName
  referencedService : String
  prefetched : Option HostedBundle

namespace Federation

/-- The service of a referenced bundle: the one that the table names or the one that the connector
names, whichever the settings prefer. -/
def serviceOf (f : Federation) (id : QualifiedName) (hint : Option String) :
    Except UnroutableBundle String :=
  let routed := f.table.route? id
  let chosen := if f.settings.preferServiceFromConnectors then hint.or routed else routed.or hint
  match chosen with
  | some service => .ok service
  | none => .error ⟨id⟩

/-- Resolves the reference of an item. -/
def locate (f : Federation) (preference : VersionPreference) (item : SearchItem) :
    Traced (Except BranchError Located) :=
  match f.serviceOf item.bundleId item.serviceHint with
  | .error e => ⟨[], .error (.unroutable e)⟩
  | .ok service =>
    let resolver : Resolver := ⟨f.services, f.table, f.settings.delegateVersionPick⟩
    let answer := resolver.resolve service item.bundleId preference item.metaBundleId
    ⟨answer.fetched,
      match answer.value with
      | .error e => .error (.resolution e)
      | .ok resolved => .ok ⟨resolved.bundleId, service, resolved.prefetched item.bundleId⟩⟩

/-- The service of the version that a reference leads to: for another version than the referenced one
the one that the table names for it, if it does. -/
def versionService (f : Federation) (item : SearchItem) (l : Located) : String :=
  if l.bundleId = item.bundleId then l.referencedService
  else (f.table.route? l.bundleId).getD l.referencedService

/-- The items that the connectors of a bundle lead to. The connectors of a bundle that is not trusted
are left alone when integrity is required. -/
def childrenOf (f : Federation) (direction : Direction) (v : BundleView) (trusted pathIntegrity : Bool)
    (pathValidity : List CheckOutcome) : Except BranchError (List SearchItem) :=
  if f.settings.requireIntegrity && !trusted then .ok []
  else
    match discoverConnectors v (some direction) with
    | .error e => .error (.query e)
    | .ok connectors =>
      .ok (connectors.filterMap fun c => SearchItem.ofConnector? c pathIntegrity pathValidity)

/-- Judges a bundle of which the verdict on its integrity is known. -/
def judge (f : Federation) (p : SearchPlan) (item : SearchItem) (service : String)
    (found : HostedBundle) (id : QualifiedName) (v : BundleView) (integrity : IntegrityResult) :
    Except BranchError Visit :=
  match ValidityCheck.runAll f.services service id item.entryNodeId p.checks with
  | .error e => .error (.remote e)
  | .ok own =>
    let pathIntegrity := item.pathIntegrity && integrity.isValid
    let pathValidity := CheckOutcome.combine item.pathValidity own
    match p.query.evalView v with
    | .error e => .error (.query e)
    | .ok answer =>
      let result : FoundResult :=
        ⟨id, item.entryNodeId, found.token, answer, integrity.isValid, own, pathIntegrity,
          pathValidity⟩
      match f.childrenOf p.direction v integrity.isValid pathIntegrity pathValidity with
      | .error e => .error e
      | .ok children =>
        let reported := !answer.isEmpty || !f.settings.omitEmptyResults
        .ok (.searched (if reported then some result else none) (!answer.isEmpty) children)

/-- Searches a bundle that has been fetched; also gives the verifier after that. -/
def examine (f : Federation) (p : SearchPlan) (item : SearchItem) (service : String)
    (found : HostedBundle) (id : QualifiedName) (verifier : Verifier) :
    Except BranchError Visit × Verifier :=
  match found.bundle.enter (some item.entryNodeId) with
  | .error e => (.error (.query e), verifier)
  | .ok v =>
    match verifier.verify id found.token item.expectedDigest with
    | (.error e, verifier) => (.error (.integrity e), verifier)
    | (.ok integrity, verifier) => (f.judge p item service found id v integrity, verifier)

/-- Searches the version that an item was resolved to; also gives the verifier after that. -/
def search (f : Federation) (p : SearchPlan) (item : SearchItem) (l : Located)
    (verifier : Verifier) : Traced (Except BranchError Visit × Verifier) :=
  let service := f.versionService item l
  match l.prefetched with
  | some found => ⟨[], f.examine p item service found l.bundleId verifier⟩
  | none =>
    ⟨[l.bundleId],
      match f.services.find service l.bundleId with
      | .error e => (.error (.remote (e.toRemote service)), verifier)
      | .ok found => f.examine p item service found l.bundleId verifier⟩

end Federation

end ProvenanceTrail
