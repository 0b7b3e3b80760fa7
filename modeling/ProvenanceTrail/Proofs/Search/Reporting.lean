import ProvenanceTrail.Proofs.Search.Schedule

/-!
# Options of reports

A search may leave out empty answers, and it may stop once it has as many results as are wanted. Neither
option changes what is reported otherwise. Two searches are compared step by step: one that reports all, and
one with the options. As long as both go on, their sessions differ in the results only, which those of the
second are the reported ones of the first (`visit_reporting`, `fill_reporting`). The second stops starting
visits before the first does, but has its results then: results are only added at the end
(`rounds_results`), so the first of them stay what they are.
-/

namespace ProvenanceTrail

variable {m : Option Nat} {o : Bool}

/-! ## The options -/

/-- Settings with other options of reports: how many results are wanted, and whether empty answers are left
out. -/
def SearchSettings.reporting (settings : SearchSettings) (m : Option Nat) (o : Bool) : SearchSettings :=
  { settings with maxResults := m, omitEmptyResults := o }

/-- A federation with other options of reports. -/
def Federation.reporting (f : Federation) (m : Option Nat) (o : Bool) : Federation :=
  { f with settings := f.settings.reporting m o }

/-- A search engine with other options of reports. -/
def Engine.reporting (e : Engine) (m : Option Nat) (o : Bool) : Engine :=
  { e with federation := e.federation.reporting m o }

/-- Whether an answer is reported: empty ones may be left out. -/
def FoundResult.isReported (o : Bool) (a : FoundResult) : Bool := !a.result.isEmpty || !o

/-- The first of the results, if not all are wanted. -/
def SearchReport.cut (m : Option Nat) (results : List FoundResult) : List FoundResult :=
  m.elim results results.take

/-- More results at the end do not change the first ones. -/
theorem SearchReport.cut_eq_of_prefix {n : Nat} {results more : List FoundResult} (h : results <+: more)
    (hn : n ≤ results.length) : cut (some n) more = cut (some n) results := by
  obtain ⟨rest, rfl⟩ := h
  exact List.take_append_of_le_length hn

/-! ## Sessions that report less -/

/-- What a visit brings, without an answer that is not reported. -/
def Visit.reporting (o : Bool) : Visit → Visit
  | .redirected target => .redirected target
  | .searched result found children =>
    .searched (result.filter (FoundResult.isReported o)) found children

namespace Session

/-- The session with the reported results only. -/
def reporting (s : Session) (o : Bool) : Session :=
  { s with results := s.results.filter (FoundResult.isReported o) }

/-- Discovering an item does not depend on what is reported. -/
theorem enqueue_reporting (s : Session) (item : SearchItem) :
    (s.reporting o).enqueue item = (s.enqueue item).reporting o := by
  have hpush : (s.reporting o).frontier.push item = s.frontier.push item := rfl
  unfold enqueue
  rw [hpush]
  cases s.frontier.push item <;> rfl

/-- Discovering several items does not depend on what is reported. -/
theorem enqueueAll_reporting (s : Session) (children : List SearchItem) :
    (s.reporting o).enqueueAll children = (s.enqueueAll children).reporting o := by
  induction children generalizing s with
  | nil => rfl
  | cons child rest ih =>
    have hcons (t : Session) : t.enqueueAll (child :: rest) =
        (if t.isClaimed child.bundleId then t else t.enqueue child).enqueueAll rest := rfl
    have hclaimed : (s.reporting o).isClaimed child.bundleId = s.isClaimed child.bundleId := rfl
    rw [hcons, hcons, hclaimed]
    split
    · exact ih s
    · rw [enqueue_reporting, ih]

/-- What is claimed within some fuel does not depend on what is reported. -/
theorem claimNextWithin_reporting (limit : Option Nat) (fuel : Nat) (s : Session) :
    (s.reporting o).claimNextWithin limit fuel =
      ((s.claimNextWithin limit fuel).1, (s.claimNextWithin limit fuel).2.reporting o) := by
  induction fuel generalizing s with
  | zero => rfl
  | succ fuel ih =>
    cases hitems : s.frontier.items with
    | nil =>
      have hitems' : (s.reporting o).frontier.items = [] := hitems
      rw [claimNextWithin_nil _ hitems, claimNextWithin_nil _ hitems']
    | cons item rest =>
      have hitems' : (s.reporting o).frontier.items = item :: rest := hitems
      have hclaimed : (s.reporting o).isClaimed item.bundleId = s.isClaimed item.bundleId := rfl
      have houtranked : (s.reporting o).isOutranked item = s.isOutranked item := rfl
      have hstarted : (s.reporting o).started = s.started := rfl
      rw [claimNextWithin_cons hitems, claimNextWithin_cons hitems', hclaimed, houtranked, hstarted]
      split_ifs
      · exact ih (s.withItems rest)
      · exact congrArg (Prod.mk none) (enqueue_reporting (s.withItems rest) item)
      · cases limit.filter (· ≤ s.started) with
        | some n => exact ih ((s.withItems rest).skip item.bundleId (.visitLimit n))
        | none => rfl

/-- A claim takes no notice of the results. -/
theorem claimNext_reporting (limit : Option Nat) (s : Session) :
    (s.reporting o).claimNext limit =
      ((s.claimNext limit).1, (s.claimNext limit).2.reporting o) :=
  claimNextWithin_reporting limit _ s

/-- Claiming a version does not depend on what is reported. -/
theorem claimVersion?_reporting (s : Session) (resolved : QualifiedName) (item : SearchItem) :
    (s.reporting o).claimVersion? resolved item =
      (s.claimVersion? resolved item).map (reporting · o) := by
  unfold claimVersion?
  change (if s.isClaimed resolved then _ else _) = _
  split <;> rfl

/-- The end of a visit that brings an answer which is not reported differs in this answer only. -/
theorem complete_reporting (s : Session) (referenced : QualifiedName) (version : Option QualifiedName)
    (outcome : Except BranchError Visit) :
    (s.reporting o).complete referenced version (outcome.map (Visit.reporting o)) =
      (s.complete referenced version outcome).reporting o := by
  rcases outcome with err | (target | ⟨result, found, children⟩)
  · cases version <;> rfl
  · cases version <;> rfl
  · have hresults (results : List FoundResult) :
        results.filter (FoundResult.isReported o) ++
            (result.filter (FoundResult.isReported o)).toList =
          (results ++ result.toList).filter (FoundResult.isReported o) := by
      cases result with
      | none => simp
      | some a => cases h : a.isReported o <;> simp [Option.filter, h]
    cases version <;>
    · simp only [complete, Except.map, Visit.reporting]
      rw [← enqueueAll_reporting]
      congr 1
      simp only [reporting, ← hresults]
      rfl

/-- Claiming leaves the results. -/
theorem claimNext_results (limit : Option Nat) (s : Session) :
    (s.claimNext limit).2.results = s.results := by
  obtain ⟨passed, t, hpasses, hends⟩ := s.claimNext_spec limit
  rw [← hpasses.results_eq]
  generalize s.claimNext limit = next at hends ⊢
  cases hends with
  | exhausted _ => rfl
  | returned _ _ _ => exact enqueue_results _ _
  | claimed _ _ _ _ => rfl

end Session

/-! ## Searching with other options -/

namespace Federation

variable {f : Federation} {p : SearchPlan}

/-- The services are the same whatever is reported. -/
theorem reporting_services : (f.reporting m o).services = f.services := rfl

/-- The options are those asked for. -/
theorem reporting_omitEmptyResults : (f.reporting m o).settings.omitEmptyResults = o := rfl

/-- Where connectors lead does not depend on the options. -/
theorem childrenOf_reporting : (f.reporting m o).childrenOf = f.childrenOf := rfl

/-- The verdict on a bundle is the same but for what is not reported. -/
theorem judge_reporting (item : SearchItem) (service : String) (found : HostedBundle) (id : QualifiedName)
    (v : BundleView) (integrity : IntegrityResult) :
    (f.reporting m o).judge p item service found id v integrity =
      ((f.reporting none false).judge p item service found id v integrity).map
        (Visit.reporting o) := by
  simp only [judge, reporting_services, reporting_omitEmptyResults, childrenOf_reporting]
  cases ValidityCheck.runAll f.services service id item.entryNodeId p.checks with
  | error e => rfl
  | ok own =>
    cases p.query.evalView v with
    | error e => rfl
    | ok answer =>
      simp only
      split
      · rfl
      · simp [Except.map, Visit.reporting, Option.filter, FoundResult.isReported]

/-- What the examination of a bundle brings is the same but for what is not reported. -/
theorem examine_reporting (item : SearchItem) (service : String) (found : HostedBundle)
    (id : QualifiedName) (verifier : Verifier) :
    (f.reporting m o).examine p item service found id verifier =
      (((f.reporting none false).examine p item service found id verifier).1.map (Visit.reporting o),
        ((f.reporting none false).examine p item service found id verifier).2) := by
  unfold examine
  cases found.bundle.enter (some item.entryNodeId) with
  | error e => rfl
  | ok v =>
    simp only
    rcases verifier.verify id found.token item.expectedDigest with ⟨_ | integrity, after⟩
    · rfl
    · exact congrArg (·, after) (judge_reporting item service found id v integrity)

/-- The search of a version brings the same with other options, except for an answer that is not
reported. -/
theorem search_reporting (item : SearchItem) (l : Located) (v : Verifier) :
    (f.reporting m o).search p item l v =
      ⟨((f.reporting none false).search p item l v).fetched,
        ((f.reporting none false).search p item l v).value.1.map (Visit.reporting o),
        ((f.reporting none false).search p item l v).value.2⟩ := by
  have hservice : (f.reporting m o).versionService item l =
      (f.reporting none false).versionService item l := rfl
  unfold search
  rw [hservice]
  cases l.prefetched with
  | some found => exact congrArg (Traced.mk []) (examine_reporting item _ found l.bundleId v)
  | none =>
    simp only [reporting_services]
    cases f.services.find ((f.reporting none false).versionService item l) l.bundleId with
    | error e => rfl
    | ok found =>
      exact congrArg (Traced.mk [l.bundleId]) (examine_reporting item _ found l.bundleId v)

end Federation

/-- What is counted of a visit does not depend on what is reported. -/
theorem Metric.ofVisit_reporting (outcome : Except BranchError Visit) :
    Metric.ofVisit (outcome.map (Visit.reporting o)) = Metric.ofVisit outcome := by
  rcases outcome with e | (target | ⟨result, found, children⟩) <;> rfl

namespace Engine

variable {e : Engine} {p : SearchPlan}

/-- The second part of a visit once it is known what is claimed: the version is searched. -/
def searchVersion (e : Engine) (p : SearchPlan) (s : Session) (item : SearchItem) (l : Located)
    (version : Option QualifiedName) : Engine × Session :=
  let answer := e.federation.search p item l e.verifier
  ((e.advance answer.fetched answer.value.2).note (.ofVisit answer.value.1),
    s.complete item.bundleId version answer.value.1)

/-- Options that are set already need not be set. -/
theorem reporting_all_of_federation {next : Engine}
    (h : next.federation = (e.reporting none false).federation) : next.reporting none false = next := by
  obtain ⟨federation, verifier, fetched, metrics⟩ := next
  subst h
  rfl

/-- The end of a visit whose version is claimed by another one. -/
def redirect (e : Engine) (s : Session) (item : SearchItem) (l : Located) : Engine × Session :=
  (e.note (.ofVisit (.ok (.redirected l.bundleId))),
    s.complete item.bundleId none (.ok (.redirected l.bundleId)))

/-- A located reference is followed by searching the bundle under it, by claiming a version, or not at all. -/
theorem follow_eq (e : Engine) (p : SearchPlan) (s : Session) (item : SearchItem) (l : Located) :
    e.follow p s item l =
      if l.bundleId = item.bundleId then e.searchVersion p s item l none
      else
        match s.claimVersion? l.bundleId item with
        | some s => e.searchVersion p s item l (some l.bundleId)
        | none => e.redirect s item l := rfl

/-- An engine and a session, both with other options of reports. -/
def reportingBoth (m : Option Nat) (o : Bool) (next : Engine × Session) : Engine × Session :=
  (next.1.reporting m o, next.2.reporting o)

/-- Searching a version goes the same way whatever is reported. -/
theorem searchVersion_reporting (s : Session) (item : SearchItem) (l : Located)
    (version : Option QualifiedName) :
    (e.reporting m o).searchVersion p (s.reporting o) item l version =
      reportingBoth m o ((e.reporting none false).searchVersion p s item l version) := by
  have hsearch : (e.reporting m o).federation.search p item l (e.reporting m o).verifier = _ :=
    Federation.search_reporting (f := e.federation) item l e.verifier
  unfold searchVersion
  simp only [hsearch, Metric.ofVisit_reporting, Session.complete_reporting]
  rfl

/-- A reference is followed the same way whatever is reported. -/
theorem follow_reporting (s : Session) (item : SearchItem) (l : Located) :
    (e.reporting m o).follow p (s.reporting o) item l =
      reportingBoth m o ((e.reporting none false).follow p s item l) := by
  rw [follow_eq, follow_eq]
  split
  · exact searchVersion_reporting s item l none
  · rw [Session.claimVersion?_reporting]
    cases s.claimVersion? l.bundleId item with
    | some s => exact searchVersion_reporting s item l (some l.bundleId)
    | none => rfl

/-- A visit ends with the same outcome, except for an answer that is not reported. -/
theorem visit_reporting (s : Session) (item : SearchItem) :
    (e.reporting m o).visit p (s.reporting o) item =
      reportingBoth m o ((e.reporting none false).visit p s item) := by
  have hlocate : (e.reporting m o).federation.locate p.preference item =
      (e.reporting none false).federation.locate p.preference item := rfl
  unfold visit
  rw [hlocate]
  generalize (e.reporting none false).federation.locate p.preference item = answer
  obtain ⟨fetched, err | l⟩ := answer
  · exact congrArg (Prod.mk _) (Session.complete_reporting s item.bundleId none (.error err))
  · exact follow_reporting (e := e.advance fetched e.verifier) s item l

/-- Filling the free places claims the same items whatever is reported. -/
theorem fillWithin_reporting (concurrency : Nat) (limit : Option Nat) (fuel : Nat) (s : Session)
    (running : List SearchItem) :
    fillWithin concurrency limit fuel (s.reporting o) running =
      ((fillWithin concurrency limit fuel s running).1.reporting o,
        (fillWithin concurrency limit fuel s running).2) := by
  induction fuel generalizing s running with
  | zero => rfl
  | succ fuel ih =>
    rw [fillWithin, fillWithin, Session.claimNext_reporting]
    split
    · rcases s.claimNext limit with ⟨_ | item, s⟩
      · rfl
      · exact ih s (running ++ [item])
    · rfl

/-- The same visits are started. -/
theorem fill_reporting (settings : SearchSettings) (s : Session) (running : List SearchItem) :
    fill (settings.reporting m o) (s.reporting o) running =
      ((fill (settings.reporting none false) s running).1.reporting o,
        (fill (settings.reporting none false) s running).2) :=
  fillWithin_reporting _ _ _ s running

/-! ## Results are added at the end -/

/-- Filling the free places leaves the results. -/
theorem fillWithin_results (concurrency : Nat) (limit : Option Nat) (fuel : Nat) (s : Session)
    (running : List SearchItem) :
    (fillWithin concurrency limit fuel s running).1.results = s.results := by
  induction fuel generalizing s running with
  | zero => rfl
  | succ fuel ih =>
    rw [fillWithin]
    split
    · have hclaim := Session.claimNext_results limit s
      generalize s.claimNext limit = next at hclaim ⊢
      obtain ⟨_ | item, s'⟩ := next
      · exact hclaim
      · exact (ih s' (running ++ [item])).trans hclaim
    · rfl

/-- A visit adds its results at the end. -/
theorem visit_results (s : Session) (item : SearchItem) :
    s.results <+: (e.visit p s item).2.results := by
  have hcomplete (s : Session) (version : Option QualifiedName) (outcome : Except BranchError Visit) :
      s.results <+: (s.complete item.bundleId version outcome).results := by
    rw [Session.complete_results]
    exact List.prefix_append _ _
  unfold visit
  generalize e.federation.locate p.preference item = answer
  obtain ⟨fetched, err | l⟩ := answer
  · exact hcomplete s none (.error err)
  · simp only
    rw [follow_eq]
    split
    · exact hcomplete s none _
    · cases hclaim : s.claimVersion? l.bundleId item with
      | some s' =>
        have hsame : s'.results = s.results := by
          unfold Session.claimVersion? at hclaim
          split at hclaim
          · cases hclaim
          · rw [← Option.some.inj hclaim]
            rfl
        rw [← hsame]
        exact hcomplete s' (some l.bundleId) _
      | none => exact hcomplete s none _

/-- The visits that are started in a round, if any may be. -/
def startVisits (settings : SearchSettings) (late : Bool) (s : Session) (running : List SearchItem) :
    Session × List SearchItem :=
  if mayStart settings late s then fill settings s running else (s, running)

/-- A round starts visits and completes the first of those in flight. -/
theorem rounds_succ (late : Bool) (fuel : Nat) (e : Engine) (s : Session) (running : List SearchItem) :
    rounds p late (fuel + 1) e s running =
      match startVisits e.federation.settings late s running with
      | (s, []) => (e, s)
      | (s, item :: rest) => rounds p late fuel (e.visit p s item).1 (e.visit p s item).2 rest := by
  rw [rounds, ← startVisits]
  rcases startVisits e.federation.settings late s running with ⟨s', _ | ⟨item, rest⟩⟩ <;> rfl

/-- Starting visits leaves the results. -/
theorem startVisits_results (late : Bool) (settings : SearchSettings) (s : Session)
    (running : List SearchItem) :
    (startVisits settings late s running).1.results = s.results := by
  unfold startVisits
  split
  · exact fillWithin_results _ _ _ s running
  · rfl

/-- Rounds only add results at the end. -/
theorem rounds_results (late : Bool) (fuel : Nat) (e : Engine) (s : Session) (running : List SearchItem) :
    s.results <+: (rounds p late fuel e s running).2.results := by
  induction fuel generalizing e s running with
  | zero => exact List.prefix_rfl
  | succ fuel ih =>
    have hstart := startVisits_results late e.federation.settings s running
    rw [rounds_succ]
    generalize startVisits e.federation.settings late s running = started at hstart ⊢
    obtain ⟨s', _ | ⟨item, rest⟩⟩ := started
    · exact hstart ▸ List.prefix_rfl
    · rw [← hstart]
      exact (visit_results s' item).trans (ih _ _ rest)

/-! ## Whole searches -/

/-- Either the same visits are started with other options, or the results that are wanted are there. -/
theorem startVisits_reporting (m : Option Nat) (o late : Bool) (settings : SearchSettings) (s : Session)
    (running : List SearchItem) :
    startVisits (settings.reporting m o) late (s.reporting o) running =
        ((startVisits (settings.reporting none false) late s running).1.reporting o,
          (startVisits (settings.reporting none false) late s running).2) ∨
      ∃ n, m = some n ∧ n ≤ (s.reporting o).results.length := by
  by_cases henough : ∃ n, m = some n ∧ n ≤ (s.reporting o).results.length
  · exact .inr henough
  · left
    have hmay : mayStart (settings.reporting m o) late (s.reporting o) =
        mayStart (settings.reporting none false) late s := by
      cases m with
      | none => rfl
      | some n =>
        have hn : (s.reporting o).results.length < n := Nat.not_le.1 fun hn => henough ⟨n, rfl, hn⟩
        simp [mayStart, SearchSettings.reporting, hn]
    unfold startVisits
    rw [hmay, fill_reporting]
    split <;> rfl

/-- Rounds with other options end with the first of the reported results. -/
theorem rounds_reporting (late : Bool) (fuel : Nat) (e : Engine) (s : Session) (running : List SearchItem) :
    SearchReport.cut m (rounds p late fuel (e.reporting m o) (s.reporting o) running).2.results =
      SearchReport.cut m ((rounds p late fuel (e.reporting none false) s running).2.results.filter
        (FoundResult.isReported o)) := by
  induction fuel generalizing e s running with
  | zero => rfl
  | succ fuel ih =>
    rcases startVisits_reporting m o late e.federation.settings s running with hstart | ⟨n, rfl, hn⟩
    · -- both start the same visits, and the same visit ends
      change startVisits (e.reporting m o).federation.settings late (s.reporting o) running =
        ((startVisits (e.reporting none false).federation.settings late s running).1.reporting o,
          (startVisits (e.reporting none false).federation.settings late s running).2) at hstart
      rw [rounds_succ, rounds_succ, hstart]
      generalize startVisits (e.reporting none false).federation.settings late s running = started
      obtain ⟨s', _ | ⟨item, rest⟩⟩ := started
      · rfl
      · simp only [visit_reporting]
        have hself : ((e.reporting none false).visit p s' item).1.reporting none false =
            ((e.reporting none false).visit p s' item).1 :=
          reporting_all_of_federation (finishes_visit s' [] _ item).2
        have hrounds := ih ((e.reporting none false).visit p s' item).1
          ((e.reporting none false).visit p s' item).2 rest
        rw [hself] at hrounds
        exact hrounds
    · -- only the search without options may go on, and adds nothing to the first results
      have hlimited := rounds_results (p := p) late (fuel + 1) (e.reporting (some n) o)
        (s.reporting o) running
      have hfull := (rounds_results (p := p) late (fuel + 1) (e.reporting none false) s
        running).filter (FoundResult.isReported o)
      rw [SearchReport.cut_eq_of_prefix hlimited hn]
      exact (SearchReport.cut_eq_of_prefix hfull hn).symm

/-- **Options of reports only cut the report.** Take the results of a search that has no limit of results
and leaves out no empty answers. With a limit, with empty answers left out, or with both, the same search
gives the first of them, after those with empty answers were dropped if empty answers are left out. -/
theorem results_reporting (e : Engine) (r : SearchRequest) (m : Option Nat) (o : Bool) :
    ((e.reporting m o).search r).1.map SearchReport.results =
      ((e.reporting none false).search r).1.map fun report =>
        SearchReport.cut m (report.results.filter (FoundResult.isReported o)) := by
  have hprepare : prepare (e.reporting m o).federation r =
      prepare (e.reporting none false).federation r := rfl
  unfold search
  rw [hprepare]
  cases hprepared : prepare (e.reporting none false).federation r with
  | error err => rfl
  | ok prepared =>
    obtain ⟨p, s⟩ := prepared
    -- at the start there are no results, so nothing is left out yet
    obtain ⟨_, -, -, -, hresults⟩ := initial_of_prepare hprepared
    have hstart : s.reporting o = s := by
      rw [Session.reporting, hresults, List.filter_nil, ← hresults]
    have hrounds := rounds_reporting (m := m) (o := o) (p := p)
      (e.federation.settings.deadline == some 0) (roundBound e.federation) e s []
    rw [hstart] at hrounds
    exact congrArg Except.ok hrounds

end Engine

end ProvenanceTrail
