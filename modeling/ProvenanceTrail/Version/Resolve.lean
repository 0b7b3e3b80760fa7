import ProvenanceTrail.Federation.Table
import ProvenanceTrail.Hosting.Services
/-!
# Resolving references

A reference is followed to the bundle it names, or to the latest version of that bundle. The latest
version is looked up by the searcher, who fetches the bundle and its meta-bundle, or is asked of the
service of the bundle.
-/

namespace ProvenanceTrail

/-- The bundle that a reference leads to, and the referenced bundle if it was fetched on the way. -/
structure Resolved where
  bundleId : QualifiedName
  referenced : Option HostedBundle

namespace Resolved

/-- A reference that was resolved without fetching. -/
def exact (id : QualifiedName) : Resolved := ⟨id, none⟩

/-- The bundle that was fetched on the way, if it is the one that the reference leads to. -/
def prefetched (r : Resolved) (referencedId : QualifiedName) : Option HostedBundle :=
  if r.bundleId = referencedId then r.referenced else none

end Resolved

/-- How references are resolved. -/
structure Resolver where
  services : Services
  federation : FederationTable
  /-- whether the service of the bundle is asked for the latest version -/
  delegate : Bool

namespace Resolver

/-- The meta-bundle is fetched from the service that the federation table names for it, else from the
service of the bundle. A connector's hint counts when the bundle itself names no meta-bundle. -/
def resolveLatest (r : Resolver) (service : String) (id : QualifiedName)
    (hint : Option QualifiedName) : Traced (Except ResolutionError Resolved) :=
  match r.services.find service id with
  | .error e => ⟨[id], .error (.remote (e.toRemote service))⟩
  | .ok found =>
    match found.bundle.metaBundle?.or hint with
    | none => ⟨[id], .error (.missingMetaBundle id)⟩
    | some metaId =>
      let metaService := (r.federation.route? metaId).getD service
      match r.services.find metaService metaId with
      | .error e => ⟨[id, metaId], .error (.remote (e.toRemote metaService))⟩
      | .ok listing =>
        ⟨[id, metaId],
          match listing.bundle.latestVersion with
          | .error e => .error e
          | .ok version => .ok ⟨version.getD id, some found⟩⟩

/-- Resolves a reference to a bundle of a service. -/
def resolve (r : Resolver) (service : String) (id : QualifiedName) (preference : VersionPreference)
    (hint : Option QualifiedName) : Traced (Except ResolutionError Resolved) :=
  match preference with
  | .specified => ⟨[], .ok (.exact id)⟩
  | .latest =>
    if r.delegate then
      ⟨[], match r.services.pickVersion service id .latest with
        | .ok version => .ok (.exact version)
        | .error e => .error (.remote (e.toRemote service))⟩
    else r.resolveLatest service id hint

end Resolver

end ProvenanceTrail
