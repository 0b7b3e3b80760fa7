import ProvenanceTrail.Proofs.Version.Latest
import ProvenanceTrail.Version.Resolve

/-!
# Asking a service for the latest version

The latest version of a bundle is looked up by the searcher, or the service of the bundle is asked for it.
The service knows only what it hosts itself, and no connector gives it hints. Where these two make no
difference, both ways go through the same bundles, so that the answers agree. So do the failures, but those
of a service that was asked are all reported as failed calls to it (`ResolutionError.fromService`).
-/

namespace ProvenanceTrail

/-- How the searcher sees a failed resolution when a service was asked for the version. A bundle that could
not be found is a failed call anyway. -/
def ResolutionError.fromService (service : String) : ResolutionError → ResolutionError
  | .remote failure => .remote failure
  | e => .remote ((HostingError.resolution e).toRemote service)

namespace Resolver

variable {services : Services} {federation : FederationTable} {service : String} {id : QualifiedName}
  {hint : Option QualifiedName} {delegate : Bool}

/-- The meta-bundle of a bundle is found where the service looks for it: no route leads to another service,
and no hint is needed. -/
structure ListedAtHome (services : Services) (federation : FederationTable) (service : String)
    (id : QualifiedName) (hint : Option QualifiedName) : Prop where
  routed : ∀ found metaId, services.find service id = .ok found → found.bundle.metaBundle? = some metaId →
    federation.route? metaId = none ∨ federation.route? metaId = some service
  unhinted : ∀ found, services.find service id = .ok found → found.bundle.metaBundle? = none → hint = none

/-- A reference to a version that the service of the bundle picks. -/
theorem resolve_delegated (services : Services) (federation : FederationTable) (service : String)
    (id : QualifiedName) (hint : Option QualifiedName) :
    ((⟨services, federation, true⟩ : Resolver).resolve service id .latest hint).value =
      ((services.pickVersion service id .latest).map Resolved.exact).mapError fun e =>
        .remote (e.toRemote service) := by
  cases h : services.pickVersion service id .latest <;> simp [resolve, h, Except.map, Except.mapError]

/-- Looked up by the searcher, the version is the one that the service picks. -/
theorem resolve_looked_up (h : ListedAtHome services federation service id hint) :
    ((services.pickVersion service id .latest).map Resolved.exact).mapError
        (fun e => .remote (e.toRemote service)) =
      ((((⟨services, federation, false⟩ : Resolver).resolve service id .latest hint).value.map
        fun r => Resolved.exact r.bundleId).mapError (·.fromService service)) := by
  have hlooked : (⟨services, federation, false⟩ : Resolver).resolve service id .latest hint =
      (⟨services, federation, false⟩ : Resolver).resolveLatest service id hint := rfl
  rw [hlooked, Services.pickVersion, resolveLatest]
  cases hfound : services.find service id with
  | error e => rfl
  | ok found =>
    cases hmeta : found.bundle.metaBundle? with
    | none =>
      obtain rfl := h.unhinted found hfound hmeta
      simp [hmeta, Except.map, Except.mapError, ResolutionError.fromService]
    | some metaId =>
      have hservice : (federation.route? metaId).getD service = service := by
        rcases h.routed found metaId hfound hmeta with hroute | hroute <;> simp [hroute]
      simp only [hmeta, Option.some_or, hservice]
      cases hlisting : services.find service metaId with
      | error e => rfl
      | ok listing =>
        cases hlatest : listing.bundle.latestVersion with
        | error e =>
          -- what is wrong with a listing is never a failed call
          obtain ⟨n, text, -, -, rfl⟩ := Bundle.latestVersion_eq_error_iff.1 hlatest
          simp [hlatest, Except.map, Except.mapError, ResolutionError.fromService]
        | ok version => simp [hlatest, Except.map, Except.mapError, Resolved.exact]

/-- Where the meta-bundle is found at home, the answer of the service is the one that the searcher finds. -/
theorem resolve_delegated_eq (h : ListedAtHome services federation service id hint)
    (preference : VersionPreference) :
    ((⟨services, federation, true⟩ : Resolver).resolve service id preference hint).value =
      ((((⟨services, federation, false⟩ : Resolver).resolve service id preference hint).value.map
        fun r => Resolved.exact r.bundleId).mapError (·.fromService service)) := by
  cases preference with
  | specified => rfl
  | latest => rw [resolve_delegated, resolve_looked_up h]

/-- **Asking the service and looking up agree.** Let no route lead from the meta-bundle that a bundle names to
another service than that of the bundle, and let the connector give no hint where the bundle names none.
Then a reference to the bundle is resolved to the same bundle by the service and by the searcher, or both
fail, and the service fails of the same cause. -/
theorem delegated_agrees (services : Services) (federation : FederationTable) (service : String)
    (id : QualifiedName) (preference : VersionPreference) (hint : Option QualifiedName)
    (hrouted : ∀ found metaId, services.find service id = .ok found →
      found.bundle.metaBundle? = some metaId →
        federation.route? metaId = none ∨ federation.route? metaId = some service)
    (hunhinted : ∀ found, services.find service id = .ok found → found.bundle.metaBundle? = none →
      hint = none) :
    (∃ asked looked : Resolved,
      ((⟨services, federation, true⟩ : Resolver).resolve service id preference hint).value = .ok asked ∧
        ((⟨services, federation, false⟩ : Resolver).resolve service id preference hint).value = .ok looked ∧
          asked.bundleId = looked.bundleId) ∨
      ∃ cause,
        ((⟨services, federation, true⟩ : Resolver).resolve service id preference hint).value =
            .error (cause.fromService service) ∧
          ((⟨services, federation, false⟩ : Resolver).resolve service id preference hint).value =
            .error cause := by
  rw [resolve_delegated_eq ⟨hrouted, hunhinted⟩ preference]
  cases ((⟨services, federation, false⟩ : Resolver).resolve service id preference hint).value with
  | ok looked => exact .inl ⟨.exact looked.bundleId, looked, rfl, rfl, rfl⟩
  | error cause => exact .inr ⟨cause, rfl, rfl⟩

end Resolver

namespace Sample

/-- A work that names its meta-bundle. -/
def work : Bundle where
  id := ⟨"", "work"⟩
  nodes := #[((Node.bare ⟨"", "main"⟩ .activity).withAttribute Vocabulary.type
    (.qualifiedName ⟨Vocabulary.mainActivity, ""⟩)).withAttribute Vocabulary.referencedMetaBundleId
      (.qualifiedName editions.id)]
  edges := #[]
  distinct := by simp

/-- A service that hosts the work and its meta-bundle. -/
def library : Services := ⟨[work, editions].map fun b => ("http://s", ⟨b, none⟩), []⟩

/-- The federation sends all bundles of the library to its service. -/
def libraryTable : FederationTable := ⟨[("", "http://s")]⟩

/-- Both ways lead from the work to its third edition. -/
theorem work_delegated_agrees :
    ∃ asked looked : Resolved,
      ((⟨library, libraryTable, true⟩ : Resolver).resolve "http://s" work.id .latest none).value =
          .ok asked ∧
        ((⟨library, libraryTable, false⟩ : Resolver).resolve "http://s" work.id .latest none).value =
            .ok looked ∧
          asked.bundleId = looked.bundleId ∧ looked.bundleId = ⟨"", "third"⟩ := by
  have hlooked :
      ((⟨library, libraryTable, false⟩ : Resolver).resolve "http://s" work.id .latest none).value.toOption.map
        Resolved.bundleId = some ⟨"", "third"⟩ := by
    decide +kernel
  have hrouted (metaId : QualifiedName) : libraryTable.route? metaId = some "http://s" := by
    simp [libraryTable, FederationTable.route?, FederationTable.longer, Text.startsWith, Text.afterFront?]
  rcases Resolver.delegated_agrees library libraryTable "http://s" work.id .latest none
      (fun _ metaId _ _ => .inr (hrouted metaId)) (fun _ _ _ => rfl) with
    ⟨asked, looked, hasked, hfound, hagree⟩ | ⟨cause, -, hfails⟩
  · rw [hfound] at hlooked
    exact ⟨asked, looked, hasked, hfound, hagree, by simpa [Except.toOption] using hlooked⟩
  · rw [hfails] at hlooked
    simp [Except.toOption] at hlooked

end Sample

end ProvenanceTrail
