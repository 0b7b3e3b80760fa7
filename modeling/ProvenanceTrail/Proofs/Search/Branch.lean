import ProvenanceTrail.Proofs.Search.Order
import ProvenanceTrail.Search.Branch

/-!
# What a search of one bundle went by

A visit passes through eight stages, each of which may fail: two on the way along its reference
(`LocateFails`), and six when the version is searched (`SearchFails`). `SearchedBy` collects what the latter
said when none failed. `search_explains` is the one place where `Federation.search` is taken apart, one stage
after the other; that a search succeeds, and that it fails, is read off it. What follows about answers and
discovered items is read off `SearchedBy`: an answer is tagged with the path of its item and the bundle's own
verdicts, and a discovered item is never more credible than the item through which it was discovered.
-/

namespace ProvenanceTrail

/-- The other version that a reference leads to, if it leads to another one. -/
def Located.version? (l : Located) (item : SearchItem) : Option QualifiedName :=
  if l.bundleId = item.bundleId then none else some l.bundleId

/-- Whether the referenced bundle or another one is searched, it is the one that the reference leads to. -/
theorem Located.getD_version? (l : Located) (item : SearchItem) :
    (l.version? item).getD item.bundleId = l.bundleId := by
  unfold version?
  split
  · rename_i h
    exact h.symm
  · rfl

namespace Federation

variable {f : Federation} {p : SearchPlan} {item : SearchItem} {l : Located} {v : Verifier}
  {preference : VersionPreference} {e : BranchError}

/-! ## Following a reference -/

/-- The stages at which following a reference can fail, each with its error. -/
inductive LocateFails (f : Federation) (preference : VersionPreference) (item : SearchItem) :
    BranchError → Prop where
  | routing {e : UnroutableBundle}
      (unroutable : f.serviceOf item.bundleId item.serviceHint = .error e) :
      LocateFails f preference item (.unroutable e)
  | resolution {service : String} {e : ResolutionError}
      (routed : f.serviceOf item.bundleId item.serviceHint = .ok service)
      (unresolved : (Resolver.resolve ⟨f.services, f.table, f.settings.delegateVersionPick⟩ service
        item.bundleId preference item.metaBundleId).value = .error e) :
      LocateFails f preference item (.resolution e)

/-- A reference is lost exactly when one of the stages fails. -/
theorem locate_eq_error_iff :
    (f.locate preference item).value = .error e ↔ f.LocateFails preference item e := by
  constructor
  · intro h
    unfold locate at h
    cases hservice : f.serviceOf item.bundleId item.serviceHint with
    | error cause =>
      obtain rfl : BranchError.unroutable cause = e := by simpa [hservice] using h
      exact .routing hservice
    | ok service =>
      simp only [hservice] at h
      split at h
      · rename_i cause hcause
        obtain rfl := Except.error.inj h
        exact .resolution hservice hcause
      · cases h
  · intro h
    unfold locate
    cases h with
    | routing unroutable => rw [unroutable]
    | resolution routed unresolved =>
      rw [routed]
      simp only [unresolved]

/-! ## Searching a version -/

/-- What a successful search of a version went by: the bundle with its token, the node it is entered at,
the verdicts, the answer and the discovered items. -/
inductive SearchedBy (f : Federation) (p : SearchPlan) (item : SearchItem) (l : Located)
    (v : Verifier) : Visit → Prop where
  | intro {hosted : HostedBundle} {view : BundleView} {verdict : IntegrityResult}
      {own : List CheckOutcome} {answer : QueryResult} {children : List SearchItem}
      (hosts : l.prefetched = some hosted ∨
        l.prefetched = none ∧ f.services.find (f.versionService item l) l.bundleId = .ok hosted)
      (enters : hosted.bundle.enter (some item.entryNodeId) = .ok view)
      (verifies : (v.verify l.bundleId hosted.token item.expectedDigest).1 = .ok verdict)
      (checked : ValidityCheck.runAll f.services (f.versionService item l) l.bundleId
        item.entryNodeId p.checks = .ok own)
      (answers : p.query.evalView view = .ok answer)
      (discovers : f.childrenOf p.direction view verdict.isValid
        (item.pathIntegrity && verdict.isValid) (CheckOutcome.combine item.pathValidity own) =
          .ok children) :
      SearchedBy f p item l v
        (.searched
          (if !answer.isEmpty || !f.settings.omitEmptyResults then
            some ⟨l.bundleId, item.entryNodeId, hosted.token, answer, verdict.isValid, own,
              item.pathIntegrity && verdict.isValid, CheckOutcome.combine item.pathValidity own⟩
          else none)
          (!answer.isEmpty) children)

/-- The bundle that a visit searches: the one that it fetched on the way, or else the one that the service
of the version has. -/
def Hosts (f : Federation) (item : SearchItem) (l : Located) (hosted : HostedBundle) : Prop :=
  l.prefetched = some hosted ∨
    l.prefetched = none ∧ f.services.find (f.versionService item l) l.bundleId = .ok hosted

/-- The stages at which searching a version can fail, each with its error and with what the stages before
it said. -/
inductive SearchFails (f : Federation) (p : SearchPlan) (item : SearchItem) (l : Located)
    (v : Verifier) : BranchError → Prop where
  | fetch {e : HostingError} (missing : l.prefetched = none)
      (unfetched : f.services.find (f.versionService item l) l.bundleId = .error e) :
      SearchFails f p item l v (.remote (e.toRemote (f.versionService item l)))
  | entry {hosted : HostedBundle} {e : ConditionError} (hosts : f.Hosts item l hosted)
      (unentered : hosted.bundle.enter (some item.entryNodeId) = .error e) :
      SearchFails f p item l v (.query e)
  | integrity {hosted : HostedBundle} {view : BundleView} {e : IntegrityError}
      (hosts : f.Hosts item l hosted)
      (enters : hosted.bundle.enter (some item.entryNodeId) = .ok view)
      (unverified : (v.verify l.bundleId hosted.token item.expectedDigest).1 = .error e) :
      SearchFails f p item l v (.integrity e)
  | checks {hosted : HostedBundle} {view : BundleView} {verdict : IntegrityResult} {e : RemoteFailure}
      (hosts : f.Hosts item l hosted)
      (enters : hosted.bundle.enter (some item.entryNodeId) = .ok view)
      (verifies : (v.verify l.bundleId hosted.token item.expectedDigest).1 = .ok verdict)
      (unchecked : ValidityCheck.runAll f.services (f.versionService item l) l.bundleId
        item.entryNodeId p.checks = .error e) :
      SearchFails f p item l v (.remote e)
  | query {hosted : HostedBundle} {view : BundleView} {verdict : IntegrityResult}
      {own : List CheckOutcome} {e : ConditionError} (hosts : f.Hosts item l hosted)
      (enters : hosted.bundle.enter (some item.entryNodeId) = .ok view)
      (verifies : (v.verify l.bundleId hosted.token item.expectedDigest).1 = .ok verdict)
      (checked : ValidityCheck.runAll f.services (f.versionService item l) l.bundleId
        item.entryNodeId p.checks = .ok own)
      (unanswered : p.query.evalView view = .error e) :
      SearchFails f p item l v (.query e)
  | connectors {hosted : HostedBundle} {view : BundleView} {verdict : IntegrityResult}
      {own : List CheckOutcome} {answer : QueryResult} {e : ConditionError}
      (hosts : f.Hosts item l hosted)
      (enters : hosted.bundle.enter (some item.entryNodeId) = .ok view)
      (verifies : (v.verify l.bundleId hosted.token item.expectedDigest).1 = .ok verdict)
      (checked : ValidityCheck.runAll f.services (f.versionService item l) l.bundleId
        item.entryNodeId p.checks = .ok own)
      (answers : p.query.evalView view = .ok answer)
      (followed : (f.settings.requireIntegrity && !verdict.isValid) = false)
      (undiscovered : discoverConnectors view (some p.direction) = .error e) :
      SearchFails f p item l v (.query e)

/-- What the outcome of a search says of its stages: one of them failed with the error, or all of them
succeeded. -/
def Explains (f : Federation) (p : SearchPlan) (item : SearchItem) (l : Located) (v : Verifier) :
    Except BranchError Visit → Prop
  | .error e => f.SearchFails p item l v e
  | .ok visit => f.SearchedBy p item l v visit

/-! ### One stage after the other -/

/-- Connectors are looked for unless the bundle is not trusted and integrity is required. -/
theorem childrenOf_eq_error_iff {direction : Direction} {view : BundleView}
    {trusted pathIntegrity : Bool} {pathValidity : List CheckOutcome} :
    f.childrenOf direction view trusted pathIntegrity pathValidity = .error e ↔
      (f.settings.requireIntegrity && !trusted) = false ∧
        ∃ cause, discoverConnectors view (some direction) = .error cause ∧ e = .query cause := by
  unfold childrenOf
  cases hleft : f.settings.requireIntegrity && !trusted with
  | true => simp
  | false =>
    cases hconnectors : discoverConnectors view (some direction) with
    | error cause => simp [eq_comm]
    | ok connectors => simp

/-- A visit that has its bundle goes on to examine it. -/
theorem Hosts.search_eq {hosted : HostedBundle} (h : f.Hosts item l hosted) :
    (f.search p item l v).value =
      f.examine p item (f.versionService item l) hosted l.bundleId v := by
  unfold search
  rcases h with hprefetched | ⟨hmissing, hfind⟩
  · rw [hprefetched]
  · simp only [hmissing, hfind]

section Examine

variable {service : String} {hosted : HostedBundle} {view : BundleView}

/-- A bundle that cannot be entered where the connector says fails. -/
theorem examine_of_unentered {cause : ConditionError}
    (unentered : hosted.bundle.enter (some item.entryNodeId) = .error cause) :
    (f.examine p item service hosted l.bundleId v).1 = .error (.query cause) := by
  rw [examine, unentered]

/-- A bundle whose token cannot be judged fails with the verifier's error. -/
theorem examine_of_unverified {cause : IntegrityError}
    (enters : hosted.bundle.enter (some item.entryNodeId) = .ok view)
    (unverified : (v.verify l.bundleId hosted.token item.expectedDigest).1 = .error cause) :
    (f.examine p item service hosted l.bundleId v).1 = .error (.integrity cause) := by
  unfold examine
  rw [enters]
  cases hverify : v.verify l.bundleId hosted.token item.expectedDigest with
  | mk answer v' =>
    obtain rfl : answer = .error cause := by rw [← unverified, hverify]
    rfl

/-- A bundle that can be entered and has a verdict is judged. -/
theorem examine_eq_judge {verdict : IntegrityResult}
    (enters : hosted.bundle.enter (some item.entryNodeId) = .ok view)
    (verifies : (v.verify l.bundleId hosted.token item.expectedDigest).1 = .ok verdict) :
    (f.examine p item service hosted l.bundleId v).1 =
      f.judge p item service hosted l.bundleId view verdict := by
  unfold examine
  rw [enters]
  cases hverify : v.verify l.bundleId hosted.token item.expectedDigest with
  | mk answer v' =>
    obtain rfl : answer = .ok verdict := by rw [← verifies, hverify]
    rfl

end Examine

/-- The search of a bundle that the visit has goes through the stages after the fetch. -/
theorem Hosts.explains {hosted : HostedBundle} (hosts : f.Hosts item l hosted) :
    f.Explains p item l v
      (f.examine p item (f.versionService item l) hosted l.bundleId v).1 := by
  cases henter : hosted.bundle.enter (some item.entryNodeId) with
  | error cause =>
    rw [examine_of_unentered henter]
    exact .entry hosts henter
  | ok view =>
    cases hverdict : (v.verify l.bundleId hosted.token item.expectedDigest).1 with
    | error cause =>
      rw [examine_of_unverified henter hverdict]
      exact .integrity hosts henter hverdict
    | ok verdict =>
      rw [examine_eq_judge henter hverdict, judge]
      cases hchecks : ValidityCheck.runAll f.services (f.versionService item l) l.bundleId
          item.entryNodeId p.checks with
      | error cause => exact SearchFails.checks hosts henter hverdict hchecks
      | ok own =>
        cases hanswer : p.query.evalView view with
        | error cause => exact SearchFails.query hosts henter hverdict hchecks hanswer
        | ok answer =>
          cases hchildren : f.childrenOf p.direction view verdict.isValid
              (item.pathIntegrity && verdict.isValid)
              (CheckOutcome.combine item.pathValidity own) with
          | error cause =>
            obtain ⟨followed, error, hconnectors, rfl⟩ := childrenOf_eq_error_iff.1 hchildren
            simp only [hchildren]
            exact SearchFails.connectors hosts henter hverdict hchecks hanswer followed hconnectors
          | ok children =>
            simp only [hchildren]
            exact SearchedBy.intro hosts henter hverdict hchecks hanswer hchildren

/-- The outcome of a search is explained by its stages. -/
theorem search_explains : f.Explains p item l v (f.search p item l v).value.1 := by
  cases hprefetched : l.prefetched with
  | some hosted =>
    have hosts : f.Hosts item l hosted := .inl hprefetched
    rw [hosts.search_eq]
    exact hosts.explains
  | none =>
    cases hfind : f.services.find (f.versionService item l) l.bundleId with
    | error cause =>
      simp only [search, hprefetched, hfind]
      exact SearchFails.fetch hprefetched hfind
    | ok hosted =>
      have hosts : f.Hosts item l hosted := .inr ⟨hprefetched, hfind⟩
      rw [hosts.search_eq]
      exact hosts.explains

/-! ### How a search ends -/

/-- A search of a version that succeeds has been through all of its stages. -/
theorem search_ok {visit : Visit} (h : (f.search p item l v).value.1 = .ok visit) :
    SearchedBy f p item l v visit := by
  have hexplains : f.Explains p item l v (f.search p item l v).value.1 := search_explains
  rwa [h] at hexplains

/-- A search of a version ends with an error exactly when one of the stages fails. -/
theorem search_eq_error_iff :
    (f.search p item l v).value.1 = .error e ↔ f.SearchFails p item l v e := by
  refine ⟨fun h => ?_, fun h => ?_⟩
  · have hexplains : f.Explains p item l v (f.search p item l v).value.1 := search_explains
    rwa [h] at hexplains
  · cases h with
    | fetch missing unfetched => simp only [search, missing, unfetched]
    | entry hosts unentered => rw [hosts.search_eq, examine_of_unentered unentered]
    | integrity hosts enters unverified =>
      rw [hosts.search_eq, examine_of_unverified enters unverified]
    | checks hosts enters verifies unchecked =>
      rw [hosts.search_eq, examine_eq_judge enters verifies, judge, unchecked]
    | query hosts enters verifies checked unanswered =>
      rw [hosts.search_eq, examine_eq_judge enters verifies, judge, checked]
      simp only [unanswered]
    | @connectors hosted view verdict own answer cause hosts enters verifies checked answers followed
        undiscovered =>
      have hchildren (pathIntegrity : Bool) (pathValidity : List CheckOutcome) :
          f.childrenOf p.direction view verdict.isValid pathIntegrity pathValidity =
            .error (.query cause) :=
        childrenOf_eq_error_iff.2 ⟨followed, _, undiscovered, rfl⟩
      rw [hosts.search_eq, examine_eq_judge enters verifies, judge, checked]
      simp only [answers, hchildren]

/-- A search of a version never ends in a redirect. -/
theorem search_ne_redirected (item : SearchItem) (l : Located) (v : Verifier) (b : QualifiedName) :
    (f.search p item l v).value.1 ≠ .ok (.redirected b) := by
  intro h
  cases search_ok h

/-- The items that the connectors of a bundle lead to all inherit one path. -/
theorem childrenOf_ok {direction : Direction} {view : BundleView} {trusted pathIntegrity : Bool}
    {pathValidity : List CheckOutcome} {children : List SearchItem}
    (h : f.childrenOf direction view trusted pathIntegrity pathValidity = .ok children)
    {child : SearchItem} (hchild : child ∈ children) :
    child.pathIntegrity = pathIntegrity ∧ child.pathValidity = pathValidity := by
  unfold childrenOf at h
  split at h
  · obtain rfl := Except.ok.inj h
    simp at hchild
  · split at h
    · cases h
    · rename_i connectors _
      obtain rfl := Except.ok.inj h
      obtain ⟨c, -, hc⟩ := List.mem_filterMap.1 hchild
      obtain ⟨bundle, -, rfl⟩ := Option.map_eq_some_iff.1 hc
      exact ⟨rfl, rfl⟩

namespace SearchedBy

variable {result : Option FoundResult} {found : Bool} {children : List SearchItem}

/-- A discovered item carries outcomes for the checks of the item it was discovered through. -/
theorem child_layout (h : SearchedBy f p item l v (.searched result found children))
    {child : SearchItem} (hchild : child ∈ children) : child.layout = item.layout := by
  obtain ⟨-, -, -, -, -, discovers⟩ := h
  obtain ⟨-, hvalidity⟩ := childrenOf_ok discovers hchild
  rw [SearchItem.layout, hvalidity, CheckOutcome.map_check_combine, SearchItem.layout]

/-- A discovered item is at most as credible as the item it was discovered through. -/
theorem atLeast_child (h : SearchedBy f p item l v (.searched result found children))
    {child : SearchItem} (hchild : child ∈ children) : item.AtLeast child := by
  obtain ⟨-, -, -, -, -, discovers⟩ := h
  obtain ⟨hintegrity, hvalidity⟩ := childrenOf_ok discovers hchild
  refine SearchItem.atLeast_of_implied ?_ ?_
  · intro hpath
    rw [hintegrity] at hpath
    exact (Bool.and_eq_true_iff.1 hpath).1
  · rw [hvalidity]
    exact CheckOutcome.combine_implies _ _

/-- An answer names the version that was searched, counts as found when there is anything in it, and
carries the path of its item joined with the bundle's own verdicts. -/
theorem result_spec {r : FoundResult} (h : SearchedBy f p item l v (.searched (some r) found children)) :
    r.bundleId = l.bundleId ∧ found = !r.result.isEmpty ∧
      r.pathIntegrity = (item.pathIntegrity && r.integrity) ∧
      r.pathValidityChecks = CheckOutcome.combine item.pathValidity r.validityChecks := by
  generalize hresult : some r = result at h
  obtain ⟨-, -, -, -, -, -⟩ := h
  split at hresult
  · obtain rfl := Option.some.inj hresult
    exact ⟨rfl, rfl, rfl, rfl⟩
  · cases hresult

end SearchedBy

end Federation

end ProvenanceTrail
