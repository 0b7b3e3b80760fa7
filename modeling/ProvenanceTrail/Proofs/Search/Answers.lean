import ProvenanceTrail.Proofs.Search.Expansion

/-!
# Answers are those of the bundles themselves

A search puts an answer together from several places. The bundle is fetched from the service that the
routes lead to, or handed back by the resolution of its version; the query is evaluated on that copy, while
each check is sent to the service, which looks the bundle up again. `FoundResult.Local` says that all of
this comes to what one would get from the hosted bundle alone, and `Expansion.local_result` that it does
for every expansion: all stages look at one bundle of one service, entered at one node.
-/

namespace ProvenanceTrail

variable {f : Federation} {p : SearchPlan}

/-- What is found at a service is hosted there, under the name that was asked for. -/
theorem Services.mem_hosted_of_find {s : Services} {service : String} {id : QualifiedName}
    {hosted : HostedBundle} (h : s.find service id = .ok hosted) :
    (service, hosted) ∈ s.hosted ∧ hosted.bundle.id = id := by
  unfold find at h
  split at h
  · cases h
  · split at h
    · cases h
    · cases hfind : s.hosted.find? (isEntry service id) with
      | none => simp [hfind] at h
      | some entry =>
        obtain rfl : entry.2 = hosted := by simpa [hfind] using h
        obtain ⟨hservice, hid⟩ : entry.1 = service ∧ entry.2.bundle.id = id := by
          simpa [isEntry] using List.find?_some hfind
        exact ⟨hservice ▸ List.mem_of_find?_eq_some hfind, hid⟩

/-! ## Checks -/

namespace ValidityCheck

variable {s : Services} {service : String} {bundle entry : QualifiedName} {hosted : HostedBundle}
  {view : BundleView}

/-- What a check says of a bundle that has been entered. -/
def test (c : ValidityCheck) (v : BundleView) : Except ConditionError Bool := do
  let condition ← Condition.bundleOfJson c.condition
  condition.testBundle v

/-- An outcome is what a check says of a bundle that has been entered. -/
def Says (v : BundleView) (c : ValidityCheck) (o : CheckOutcome) : Prop :=
  o.check = c.id ∧ c.test v = .ok o.satisfied

/-- A service that evaluates a check tells what the check says of the bundle that it hosts. -/
theorem run_eq_test (c : ValidityCheck) (hosts : s.find service bundle = .ok hosted)
    (enters : hosted.bundle.enter (some entry) = .ok view) :
    c.run s service bundle entry =
      (c.test view).mapError fun e => (HostingError.query e).toRemote service := by
  unfold run Services.query test
  simp only [hosts, BundleQuery.ofJson]
  cases hcondition : Condition.bundleOfJson c.condition with
  | error e => rfl
  | ok condition =>
    have heval : BundleQuery.eval hosted.bundle (some entry) (.testFits condition) =
        (condition.testBundle view).map .testFits := by
      rw [BundleQuery.eval, enters]
      rfl
    simp only [Except.map, heval]
    show _ = (condition.testBundle view).mapError _
    cases condition.testBundle view with
    | error e => rfl
    | ok fits => rfl

/-- Checks that a service evaluates come out as each of them says of the bundle, in their order. -/
theorem forall₂_says_of_runAll (hosts : s.find service bundle = .ok hosted)
    (enters : hosted.bundle.enter (some entry) = .ok view) {checks : List ValidityCheck}
    {outcomes : List CheckOutcome} (h : runAll s service bundle entry checks = .ok outcomes) :
    List.Forall₂ (Says view) checks outcomes := by
  induction checks generalizing outcomes with
  | nil =>
    obtain rfl := Except.ok.inj h
    exact .nil
  | cons c rest ih =>
    rw [runAll, run_eq_test c hosts enters] at h
    cases htest : c.test view with
    | error e => simp [htest, Except.mapError] at h
    | ok satisfied =>
      cases hrest : runAll s service bundle entry rest with
      | error e => simp [htest, hrest, Except.mapError] at h
      | ok outcomes' =>
        obtain rfl : ⟨c.id, satisfied⟩ :: outcomes' = outcomes := by
          simpa [htest, hrest, Except.mapError] using h
        exact .cons ⟨rfl, htest⟩ (ih hrest)

/-- What checks say is listed under their ids. -/
theorem map_check_of_says {checks : List ValidityCheck} {outcomes : List CheckOutcome}
    (h : List.Forall₂ (Says view) checks outcomes) :
    outcomes.map CheckOutcome.check = checks.map ValidityCheck.id := by
  induction h with
  | nil => rfl
  | cons hfirst _ ih => rw [List.map_cons, List.map_cons, hfirst.1, ih]

end ValidityCheck

/-! ## Answers -/

/-- What a request asks, evaluated on a bundle. -/
def SearchRequest.answerOn (r : SearchRequest) (b : Bundle) (entry : QualifiedName) :
    Except ConditionError QueryResult := do
  let query ← BundleQuery.ofJson r.queryType r.querySpecification
  query.eval b (some entry)

/-- An answer is that of a hosted bundle: it names the bundle and carries its token, the request evaluated
on the bundle gives the same, and so do the selected checks, in the order of their selection. -/
structure FoundResult.Local (f : Federation) (r : SearchRequest) (service : String)
    (hosted : HostedBundle) (a : FoundResult) : Prop where
  mem_hosted : (service, hosted) ∈ f.services.hosted
  found : f.services.find service a.bundleId = .ok hosted
  bundleId : hosted.bundle.id = a.bundleId
  token : a.token = hosted.token
  answer : r.answerOn hosted.bundle a.entryNodeId = .ok a.result
  checks : ∃ checks view, f.validity.select r.validityChecks = .ok checks ∧
    hosted.bundle.enter (some a.entryNodeId) = .ok view ∧
      List.Forall₂ (ValidityCheck.Says view) checks a.validityChecks

namespace Expansion

/-- The answer of an expansion is that of the bundle that is hosted. -/
theorem local_result (x : Expansion f p) {r : SearchRequest} {s : Session}
    (hprepare : Engine.prepare f r = .ok (p, s)) :
    x.result.Local f r (f.versionService x.item x.located) x.hosted := by
  obtain ⟨hquery, hselect, -, -⟩ := Engine.plan_of_prepare hprepare
  obtain ⟨hmem, hid⟩ := Services.mem_hosted_of_find x.hosts
  refine ⟨hmem, x.hosts, hid, rfl, ?_, ?_⟩
  · show r.answerOn x.hosted.bundle x.item.entryNodeId = .ok x.answer
    rw [SearchRequest.answerOn, hquery]
    show BundleQuery.eval x.hosted.bundle (some x.item.entryNodeId) p.query = .ok x.answer
    rw [BundleQuery.eval, x.enters]
    exact x.answers
  · exact ⟨p.checks, x.view, hselect, x.enters,
      ValidityCheck.forall₂_says_of_runAll x.hosts x.enters x.checked⟩

/-- An expansion that was carried out expands its bundle through its item. -/
theorem Performed.expands {start st : SearchState} {es : List Event} {x : Expansion f p}
    (h : x.Performed start es st) : Expands es x.bundleId x.item := by
  obtain ⟨-, admitted, hended⟩ := h
  refine ⟨x.version?, _, _, _, admitted, hended, ?_⟩
  by_cases hsame : x.located.bundleId = x.item.bundleId
  · exact .inl hsame
  · exact .inr (if_neg hsame)

end Expansion

namespace Engine

variable {r : SearchRequest} {s : Session} {v : Verifier} {es : List Event} {st : SearchState}

/-- An item through which a bundle is expanded was claimed. -/
theorem mem_claimedItems_of_expands (hprepare : prepare f r = .ok (p, s))
    (hrun : Run f p (.initial s v) es st) {b : QualifiedName} {x : SearchItem}
    (h : Expands es b x) : x ∈ claimedItems es := by
  have htracked := tracked_of_prepare hprepare hrun
  exact htracked.claimed _ (htracked.expanded b x h)

/-- **Every answer is the one that the bundle itself gives.** In every run of a search, each answer is that
of a bundle hosted at some service under the name that the answer gives. The integrity that it carries is
what the verifier said of the bundle, its token and the digest pinned by the claimed item, at the time when
the bundle was examined. -/
theorem answered_as_hosted (hprepare : prepare f r = .ok (p, s))
    (hrun : Run f p (.initial s v) es st) :
    ∀ a ∈ st.session.results, ∃ service hosted, a.Local f r service hosted ∧
      ∃ x ∈ claimedItems es, Expands es a.bundleId x ∧ x.entryNodeId = a.entryNodeId ∧
        ∃ l before mid after, l.bundleId = a.bundleId ∧
          es = before ++ .examined x l :: after ∧ Run f p (.initial s v) before mid ∧
          Run f p mid (.examined x l :: after) st ∧
          ∃ verdict, (mid.verifier.verify a.bundleId hosted.token x.expectedDigest).1 = .ok verdict ∧
            a.integrity = verdict.isValid := by
  intro a ha
  have hlaid := laid_of_prepare (v := v) hprepare
  obtain ⟨entry, -, -, -, hresults⟩ := initial_of_prepare hprepare
  obtain ⟨x, hperformed, rfl⟩ := hrun.exists_expansion_of_mem_results hlaid rfl hresults ha
  have hexpands := hperformed.expands
  obtain ⟨⟨before, mid, after, hes, hbefore, hafter, hverifier⟩, -⟩ := hperformed
  refine ⟨_, x.hosted, x.local_result hprepare, x.item,
    mem_claimedItems_of_expands hprepare hrun hexpands, hexpands, rfl,
    x.located, before, mid, after, rfl, hes, hbefore, hafter, x.verdict, ?_, rfl⟩
  rw [hverifier]
  exact x.verifies

/-- The search of the disagreeing listings, one bundle at a time: `S` is handed back by the resolution of
its version, `B` is fetched as the version that the reference to `A` leads to. -/
theorem exists_run_one_by_one :
    ∃ es st, Run Sample.Versions.federation Sample.Versions.plan
        (.initial Sample.Versions.session Sample.verifier) es st ∧
      st.session.results.map FoundResult.bundleId = ["S", "B"].map Sample.document ∧
      Visits.find? (Sample.document "A") st.session.visited =
        some (.redirected (Sample.document "B")) ∧ st.running.length = 0 := by
  have hplay : (SearchState.play Sample.Versions.federation Sample.Versions.plan
      (.initial Sample.Versions.session Sample.verifier) Sample.Versions.oneByOne).any (fun r =>
        r.2.session.results.map FoundResult.bundleId == ["S", "B"].map Sample.document &&
          (Visits.find? (Sample.document "A") r.2.session.visited ==
              some (.redirected (Sample.document "B")) && r.2.running.length == 0)) = true := by
    decide +kernel
  obtain ⟨⟨es, st⟩, hst, hplayed⟩ := (Option.any_eq_true _ _).1 hplay
  obtain ⟨hresults, hrest⟩ := Bool.and_eq_true_iff.1 hplayed
  obtain ⟨hA, hrunning⟩ := Bool.and_eq_true_iff.1 hrest
  exact ⟨es, st, Run.of_play hst, eq_of_beq hresults, eq_of_beq hA, eq_of_beq hrunning⟩

/-- A bundle that was handed back and one that was fetched as a version are both answered as they are
hosted. -/
theorem versions_answered_as_hosted :
    ∃ es st, Run Sample.Versions.federation Sample.Versions.plan
        (.initial Sample.Versions.session Sample.verifier) es st ∧
      st.session.results.map FoundResult.bundleId = ["S", "B"].map Sample.document ∧
      ∀ a ∈ st.session.results, ∃ service hosted,
        a.Local Sample.Versions.federation Sample.Versions.request service hosted := by
  obtain ⟨es, st, hrun, hresults, -⟩ := exists_run_one_by_one
  refine ⟨es, st, hrun, hresults, fun a ha => ?_⟩
  obtain ⟨service, hosted, hlocal, -⟩ :=
    answered_as_hosted Sample.Versions.prepare_request hrun a ha
  exact ⟨service, hosted, hlocal⟩

end Engine

end ProvenanceTrail
