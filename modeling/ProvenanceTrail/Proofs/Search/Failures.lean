import ProvenanceTrail.Proofs.Search.Ownership

/-!
# Failing visits

A visit can fail at eight stages, two of them on the way along its reference (`Federation.LocateFails`) and
six when the version is searched (`Federation.SearchFails`). Failing itself leaves the session alone. When
the visit then ends, it gives up what it holds and records that these bundles were skipped, and why
(`Session.Abandons`); nothing that it did before it failed shows in the session.

Every text among the errors of a session is that of one skipped bundle and the other way round, whether a
visit failed or the limit of visits was reached. This is so because no outcome is recorded twice
(`Session.Accounted`).
-/

namespace ProvenanceTrail

variable {f : Federation} {p : SearchPlan}

/-! ## Visits that fail -/

namespace OpenVisit

/-- The move by which the visit at a position goes on. -/
def next (i : Nat) (v : OpenVisit) : Move :=
  match v.stage with
  | .claimed => .follow i
  | .located _ => .examine i
  | .settled _ => .finish i

/-- A visit fails with an error at one of the stages that come with its next move. -/
def Fails (f : Federation) (p : SearchPlan) (verifier : Verifier) (v : OpenVisit) (e : BranchError) :
    Prop :=
  match v.stage with
  | .claimed => f.LocateFails p.preference v.item e
  | .located l => f.SearchFails p v.item l verifier e
  | .settled _ => False

/-- A visit has an error to tell only if it has failed at one of the stages. -/
theorem Founded.exists_fails {v : OpenVisit} {e : BranchError} (h : v.Founded f p)
    (hstage : v.stage = .settled (.error e)) (u : Verifier) :
    ∃ stage verifier, Fails f p verifier { v with stage := stage } e := by
  cases h with
  | start item => cases hstage
  | located leads => cases hstage
  | @lost item cause fails =>
    obtain rfl : cause = e := by simpa using hstage
    exact ⟨.claimed, u, Federation.locate_eq_error_iff.1 fails⟩
  | redirected leads other => simp at hstage
  | @examined item l leads verifier =>
    exact ⟨.located l, verifier, Federation.search_eq_error_iff.1 (Stage.settled.inj hstage)⟩

end OpenVisit

/-- A visit that fails changes nothing in the session: all that is left is to tell the error. -/
theorem SearchState.Laid.move_of_fails {st : SearchState} {i : Nat} {v : OpenVisit} {e : BranchError}
    (h : st.Laid f p) (hvisit : st.running[i]? = some v) (hfails : v.Fails f p st.verifier e) :
    ∃ event verifier, st.move f p (v.next i) = some (event,
      ⟨st.session, st.running.set i { v with stage := .settled (.error e) }, verifier⟩) := by
  have hfounded := h.founded v (List.mem_of_getElem? hvisit)
  obtain ⟨item, version, stage⟩ := v
  cases stage with
  | claimed =>
    obtain rfl : version = none := congrArg OpenVisit.version (hfounded.eq_start rfl)
    have hlocate := Federation.locate_eq_error_iff.2 hfails
    refine ⟨.followed item none, st.verifier, ?_⟩
    simp only [OpenVisit.next, move, hvisit, Federation.followReference, hlocate]
  | located l =>
    have hsearch := Federation.search_eq_error_iff.2 hfails
    refine ⟨.examined item l, (f.search p item l st.verifier).value.2, ?_⟩
    simp only [OpenVisit.next, move, hvisit, hsearch]
  | settled outcome => exact hfails.elim

/-- The error that a visit has to tell, if it has failed. -/
def OpenVisit.error? (v : OpenVisit) : Option BranchError :=
  match v.stage with
  | .settled (.error e) => some e
  | _ => none

/-- A visit has an error just if it has settled with one. -/
theorem OpenVisit.error?_eq_some_iff {v : OpenVisit} {e : BranchError} :
    v.error? = some e ↔ v.stage = .settled (.error e) := by
  obtain ⟨item, version, stage⟩ := v
  rcases stage with _ | l | (cause | visit) <;> simp [error?]

/-! ## The end of a failed visit -/

/-- All that the end of a failed visit changes in a session: the bundles that the visit held are given up,
are recorded as skipped with the code and the text of the error, and are reported. -/
structure Session.Abandons (s : Session) (ids : List QualifiedName) (e : BranchError) (t : Session) :
    Prop where
  inFlight : t.inFlight = s.inFlight.filter fun c => c.1 ∉ ids
  skipped : ∀ id ∈ ids, Visits.find? id t.visited = some (.skipped e.code e.message)
  kept : ∀ id, id ∉ ids → Visits.find? id t.visited = Visits.find? id s.visited
  errors : t.errors = s.errors ++ ids.map fun id => s!"Error while processing bundle {id}: {e.message}"
  frontier : t.frontier = s.frontier
  results : t.results = s.results
  started : t.started = s.started

/-- Completing a visit with an error abandons what it claimed. -/
theorem Session.complete_abandons (s : Session) (referenced : QualifiedName)
    (version : Option QualifiedName) (e : BranchError) :
    s.Abandons (version.toList ++ [referenced]) e (s.complete referenced version (.error e)) := by
  have hids (id : QualifiedName) :
      id ∈ version.toList ++ [referenced] ↔ id ∈ referenced :: version.toList := by
    rw [List.mem_append, List.mem_singleton, List.mem_cons, or_comm]
  have hendings : (Visit.endings referenced version (.error e)).map Prod.fst =
      version.toList ++ [referenced] := by
    rw [Visit.endings, List.map_map]
    exact List.map_id _
  constructor
  case inFlight =>
    rw [s.complete_inFlight]
    simp only [hids]
  case skipped =>
    intro id hid
    rw [s.complete_visited]
    obtain ⟨outcome, hmem, hfind⟩ := Visits.exists_find?_insertAll (hendings.symm ▸ hid)
    obtain ⟨_, -, heq⟩ := List.mem_map.1 hmem
    rw [hfind, ← (Prod.mk.inj heq).2]
  case kept =>
    intro id hid
    rw [s.complete_visited]
    exact Visits.find?_insertAll_of_notMem (hendings.symm ▸ hid)
  case errors =>
    rw [s.complete_errors _ _ _ (by simp [Visit.children]), Visit.endings, List.filterMap_map,
      ← List.filterMap_eq_map]
    rfl
  case frontier => cases version <;> rfl
  case results => cases version <;> rfl
  case started => cases version <;> rfl

/-! ## Errors and skipped bundles -/

/-- Whether an error ended the branch of the bundle. -/
def VisitOutcome.isSkipped : VisitOutcome → Bool
  | .skipped _ _ => true
  | _ => false

/-- The bundles that were skipped. -/
def Visits.skipped (visits : Visits) : List QualifiedName :=
  (visits.filter fun v => v.2.isSkipped).map Prod.fst

/-- Every bundle has one outcome at most, and the errors are the texts of the skipped bundles. -/
structure Session.Accounted (s : Session) : Prop where
  distinct : (s.visited.map Prod.fst).Nodup
  errors : s.errors.Perm (s.visited.filterMap Visits.skipText?)

namespace Visits

/-- As many texts are reported as bundles are skipped. -/
theorem length_skipped (visits : Visits) :
    visits.skipped.length = (visits.filterMap skipText?).length := by
  unfold skipped
  induction visits with
  | nil => rfl
  | cons v rest ih =>
    obtain ⟨id, outcome⟩ := v
    rw [List.length_map] at ih ⊢
    cases outcome with
    | skipped code message => exact congrArg (· + 1) ih
    | found | notFound | redirected => exact ih

/-- When each bundle has one outcome, finding it is having it in the list. -/
theorem find?_eq_some_iff {visits : Visits} (h : (visits.map Prod.fst).Nodup) {id : QualifiedName}
    {outcome : VisitOutcome} : find? id visits = some outcome ↔ (id, outcome) ∈ visits := by
  induction visits with
  | nil => simp [find?]
  | cons v rest ih =>
    obtain ⟨other, old⟩ := v
    rw [List.map_cons, List.nodup_cons] at h
    rw [find?_cons, List.mem_cons, Prod.mk.injEq, ← ih h.2]
    by_cases hid : id = other
    · have hnone : find? id rest = none := find?_eq_none_iff.2 (hid ▸ h.1)
      simp [hid ▸ hnone, hid, eq_comm]
    · simp [hid]

/-- When each bundle has one outcome, the skipped bundles are those whose outcome says so. -/
theorem mem_skipped_iff {visits : Visits} (h : (visits.map Prod.fst).Nodup) {id : QualifiedName} :
    id ∈ visits.skipped ↔ ∃ code message, find? id visits = some (.skipped code message) := by
  simp only [find?_eq_some_iff h, skipped, List.mem_map, List.mem_filter]
  constructor
  · rintro ⟨⟨id, outcome⟩, ⟨hmem, hskipped⟩, rfl⟩
    cases outcome with
    | skipped code message => exact ⟨code, message, hmem⟩
    | found | notFound | redirected => cases hskipped
  · rintro ⟨code, message, hmem⟩
    exact ⟨(id, .skipped code message), ⟨hmem, rfl⟩, rfl⟩

/-- When each bundle has one outcome, no bundle is listed twice among the skipped ones. -/
theorem nodup_skipped {visits : Visits} (h : (visits.map Prod.fst).Nodup) : visits.skipped.Nodup :=
  h.sublist (List.filter_sublist.map Prod.fst)

end Visits

namespace Session.Accounted

variable {s t : Session}

/-- First outcomes of different bundles keep the errors accounted for, if those that say so are
reported. -/
theorem insertAll (h : s.Accounted) {records : List (QualifiedName × VisitOutcome)}
    (fresh : (records.map Prod.fst ++ s.visited.map Prod.fst).Nodup)
    (hvisited : t.visited = Visits.insertAll records s.visited)
    (herrors : t.errors = s.errors ++ records.filterMap Visits.skipText?) : t.Accounted := by
  have hperm := Visits.insertAll_perm fresh
  rw [← hvisited] at hperm
  refine ⟨?_, ?_⟩
  · rw [(hperm.map Prod.fst).nodup_iff, List.map_append]
    exact fresh
  · calc t.errors.Perm (records.filterMap Visits.skipText? ++ s.errors) := by
          rw [herrors]
          exact List.perm_append_comm
      _ |>.Perm ((records ++ s.visited).filterMap Visits.skipText?) := by
          rw [List.filterMap_append]
          exact h.errors.append_left _
      _ |>.Perm (t.visited.filterMap Visits.skipText?) := (hperm.filterMap _).symm

/-- A free bundle is accounted for when the limit of visits makes it skipped. -/
theorem passes (h : s.Accounted) {limit : Option Nat} {passed : List SearchItem}
    (hpasses : Passes limit s passed t) : t.Accounted := by
  induction hpasses with
  | nil s => exact h
  | drop front claimed more ih => exact ih ⟨h.distinct, h.errors⟩
  | @skip s t item rest passed n front free top reached more ih =>
    have hfresh : item.bundleId ∉ s.visited.map Prod.fst :=
      Visits.find?_eq_none_iff.1 ((s.isClaimed_eq_false_iff).1 free).2
    have hrecord : ([(item.bundleId, VisitOutcome.skipped (BranchError.visitLimit n).code
        (BranchError.visitLimit n).message)].map Prod.fst ++ s.visited.map Prod.fst).Nodup :=
      List.nodup_cons.2 ⟨hfresh, h.distinct⟩
    exact ih (h.insertAll hrecord rfl rfl)

end Session.Accounted

/-- The end of a visit records one outcome of a bundle. -/
theorem Visit.nodup_endings {referenced : QualifiedName} {version : Option QualifiedName}
    (h : (referenced :: version.toList).Nodup) (outcome : Except BranchError Visit) :
    ((endings referenced version outcome).map Prod.fst).Nodup := by
  rcases outcome with e | (target | ⟨result, found, children⟩)
  · cases version with
    | none => simp [endings]
    | some id => simpa [endings, eq_comm] using h
  · simp [endings]
  · cases version with
    | none => simp [endings]
    | some id => simpa [endings] using h

/-- The end of a visit records outcomes of different bundles, none of which had one. -/
theorem SearchState.Owned.nodup_endings {st : SearchState} (h : st.Owned)
    {before after : List OpenVisit} {v : OpenVisit} (running : st.running = before ++ v :: after)
    (hvisited : (st.session.visited.map Prod.fst).Nodup) (outcome : Except BranchError Visit) :
    ((Visit.endings v.item.bundleId v.version outcome).map Prod.fst ++
      st.session.visited.map Prod.fst).Nodup := by
  have hvisit : v ∈ st.running := by simp [running]
  have hids : v.ids.Nodup := (List.nodup_flatMap.1 h.distinct).1 v hvisit
  refine List.nodup_append.2 ⟨Visit.nodup_endings hids outcome, hvisited, ?_⟩
  rintro id hending _ hid rfl
  -- the visit holds the bundle, so it has no outcome yet
  have hheld : id ∈ v.ids := Visit.map_fst_endings_subset _ _ _ hending
  exact Visits.find?_eq_none_iff.1 (h.pending id (List.mem_flatMap.2 ⟨v, hvisit, hheld⟩)) hid

/-- Every change keeps the errors accounted for. -/
theorem Session.Accounted.change {st st' : SearchState} {e : Event} (h : st.session.Accounted)
    (hlaid : st.Laid f p) (howned : st.Owned) (hchange : Change f p st e st') :
    st'.session.Accounted := by
  cases hchange with
  | claimed passes front free top within =>
    have hpassed := h.passes passes
    exact ⟨hpassed.distinct, hpassed.errors⟩
  | returned passes front free outranked =>
    have hpassed := h.passes passes
    exact ⟨hpassed.distinct, hpassed.errors⟩
  | exhausted passes empty => exact h.passes passes
  | @followed before after item v s running result =>
    rcases followReference_claims result with ⟨-, rfl⟩ | ⟨id, -, -, -, rfl⟩
    · exact h
    · exact ⟨h.distinct, h.errors⟩
  | examined running => exact h
  | @ended before after item version outcome running =>
    exact h.insertAll (howned.nodup_endings running h.distinct outcome) (st.session.complete_visited _ _ _)
      (st.session.complete_errors _ _ _ (hlaid.children_layout running))
  | elsewhere call => exact h

/-! ## Runs -/

namespace Engine

variable {r : SearchRequest} {s : Session} {v : Verifier} {es : List Event} {st : SearchState}

/-- Every search accounts for its errors at any time. -/
theorem accounted_of_prepare (hprepare : prepare f r = .ok (p, s))
    (hrun : Run f p (.initial s v) es st) : st.session.Accounted := by
  have hboth : st.Owned ∧ st.session.Accounted := by
    refine hrun.induct (motive := fun _ st => st.Owned ∧ st.session.Accounted)
      (laid_of_prepare hprepare) ?_ ?_
    · obtain ⟨entry, -, rfl⟩ := prepare_eq_ok hprepare
      exact ⟨.initial _ v, .nil, .refl _⟩
    · intro es st e st' hlaid ih hchange
      exact ⟨ih.1.change hchange, ih.2.change hlaid ih.1 hchange⟩
  exact hboth.2

/-- **A failing visit affects nothing else.** In every state that a search reaches, a visit that fails at
one of its stages leaves the session alone, and only such visits have an error to tell. When one ends, all
that changes is that its bundles are given up, skipped and reported. So there are as many errors as skipped
bundles, and no skipped bundle has an answer. -/
theorem failures_contained (hprepare : prepare f r = .ok (p, s))
    (hrun : Run f p (.initial s v) es st) :
    (∀ i visit e, st.running[i]? = some visit → visit.Fails f p st.verifier e →
      ∃ event verifier, st.move f p (visit.next i) = some (event,
        ⟨st.session, st.running.set i { visit with stage := .settled (.error e) }, verifier⟩)) ∧
      (∀ visit ∈ st.running, ∀ e, visit.stage = .settled (.error e) →
        ∃ stage verifier, OpenVisit.Fails f p verifier { visit with stage := stage } e) ∧
      (∀ i visit e, st.running[i]? = some visit → visit.stage = .settled (.error e) →
        ∃ t, st.move f p (.finish i) = some (.ended visit.item visit.version (.error e) [],
            ⟨t, st.running.eraseIdx i, st.verifier⟩) ∧
          st.session.Abandons (visit.version.toList ++ [visit.item.bundleId]) e t) ∧
      st.session.errors.length = st.session.visited.skipped.length ∧
      st.session.visited.skipped.Nodup ∧
      (∀ id, id ∈ st.session.visited.skipped ↔
        ∃ code message, Visits.find? id st.session.visited = some (.skipped code message)) ∧
      ∀ r ∈ st.session.results, r.bundleId ∉ st.session.visited.skipped := by
  have hlaid := hrun.laid (laid_of_prepare hprepare)
  have haccounted := accounted_of_prepare hprepare hrun
  refine ⟨fun i visit e => hlaid.move_of_fails, ?_, ?_, ?_, Visits.nodup_skipped haccounted.distinct,
    fun id => Visits.mem_skipped_iff haccounted.distinct, ?_⟩
  · intro visit hvisit e hstage
    exact (hlaid.founded visit hvisit).exists_fails hstage st.verifier
  · rintro i ⟨item, version, stage⟩ e hvisit rfl
    refine ⟨st.session.complete item.bundleId version (.error e), ?_,
      st.session.complete_abandons item.bundleId version e⟩
    simp only [SearchState.move, hvisit, SearchState.finish]
    rfl
  · rw [haccounted.errors.length_eq, Visits.length_skipped]
  · intro r hr hskipped
    -- the outcome of an answered bundle is found or not found, never skipped
    obtain ⟨code, message, hfind⟩ := (Visits.mem_skipped_iff haccounted.distinct).1 hskipped
    rw [(reported_of_prepare hprepare hrun).outcome r hr, FoundResult.outcome] at hfind
    split at hfind <;> cases hfind

end Engine

namespace Sample.Versions

/-- The meta-bundle of `S` lists a later version, which no service has. -/
def orphaned : Federation :=
  { federation with
    services :=
      { hosted := [bundleS, listing "metaS" "S" "S2" (by decide)].map fun b => ("http://s", ⟨b, none⟩)
        unreachable := [] } }

theorem prepare_orphaned : Engine.prepare orphaned request = .ok (plan, session) := by
  with_unfolding_all rfl

end Sample.Versions

/-- The visit of `S` claims the later version `S2` and fails to fetch it. Its end skips and reports both. -/
theorem Engine.versions_failures_contained :
    ∃ es st t e, Run Sample.Versions.orphaned Sample.Versions.plan
        (.initial Sample.Versions.session Sample.verifier) es st ∧
      st.move Sample.Versions.orphaned Sample.Versions.plan (.finish 0) = some t ∧
      Visits.find? (Sample.document "S") t.2.session.visited = some (.skipped "REMOTE_CALL_ERROR" e) ∧
      Visits.find? (Sample.document "S2") t.2.session.visited = some (.skipped "REMOTE_CALL_ERROR" e) ∧
      t.2.session.errors.length = t.2.session.visited.skipped.length ∧ t.2.running = [] := by
  have hplay : (SearchState.play Sample.Versions.orphaned Sample.Versions.plan
      (.initial Sample.Versions.session Sample.verifier) [.claim, .follow 0, .examine 0]).any (fun r =>
        r.2.running.map (fun v => (v.ids, v.error?.map BranchError.code)) ==
          [(["S", "S2"].map Sample.document, some "REMOTE_CALL_ERROR")]) = true := by
    decide +kernel
  obtain ⟨⟨es, st⟩, hst, hplayed⟩ := (Option.any_eq_true _ _).1 hplay
  have hrun := Run.of_play hst
  obtain ⟨visit, hrunning, hvisit⟩ := List.map_eq_singleton_iff.1 (eq_of_beq hplayed)
  obtain ⟨hids, hcode⟩ := Prod.mk.inj hvisit
  obtain ⟨e, herror, hcode⟩ := Option.map_eq_some_iff.1 hcode
  obtain ⟨-, -, hend, -⟩ := failures_contained Sample.Versions.prepare_orphaned hrun
  obtain ⟨t, hmove, habandons⟩ :=
    hend 0 visit e (by rw [hrunning]; rfl) (OpenVisit.error?_eq_some_iff.1 herror)
  obtain ⟨-, -, -, herrors, -⟩ :=
    failures_contained Sample.Versions.prepare_orphaned (.step hrun hmove)
  have hskipped (id : QualifiedName) (hid : id ∈ ["S", "S2"].map Sample.document) :
      Visits.find? id t.visited = some (.skipped "REMOTE_CALL_ERROR" e.message) := by
    rw [← hids, OpenVisit.ids] at hid
    rw [← hcode]
    exact habandons.skipped id (by simpa [or_comm] using hid)
  refine ⟨es, st, _, e.message, hrun, hmove, hskipped _ (by simp), hskipped _ (by simp), herrors, ?_⟩
  rw [hrunning]
  rfl

end ProvenanceTrail
