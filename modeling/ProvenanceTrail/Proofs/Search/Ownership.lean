import Mathlib.Data.List.Flatten
import Mathlib.Data.List.Nodup
import ProvenanceTrail.Proofs.Search.Schedule

/-!
# Who holds a bundle

A bundle that is in flight is held by one visit under way, as its referenced bundle or as the version that
its reference led to. `Owned` states this for a session and its visits. Both ways of claiming a bundle add
to it a bundle that nobody holds and that has no outcome, and the end of a visit takes away exactly what
the visit held. The limit of visits records outcomes too, but only of bundles that nobody holds.

So an outcome stays as it was recorded (`Change.outcome_kept`), and each answer in the results has the
outcome that it calls for (`Reported`).
-/

namespace ProvenanceTrail

variable {f : Federation} {p : SearchPlan}

/-- The bundles in flight are those that the visits under way hold, each held once and none of them with
an outcome. -/
structure SearchState.Owned (st : SearchState) : Prop where
  inFlight : st.session.inFlight.Perm (st.running.flatMap OpenVisit.claims)
  distinct : (st.running.flatMap OpenVisit.ids).Nodup
  pending : ∀ id ∈ st.running.flatMap OpenVisit.ids, Visits.find? id st.session.visited = none

/-- The ids claimed by a visit are its own. -/
theorem OpenVisit.map_fst_claims (v : OpenVisit) : v.claims.map Prod.fst = v.ids := by
  simp [claims, Function.comp_def]

/-- The ids claimed by visits are their own. -/
theorem OpenVisit.fst_mem_of_mem_claims {c : QualifiedName × SearchItem} {visits : List OpenVisit}
    (h : c ∈ visits.flatMap OpenVisit.claims) : c.1 ∈ visits.flatMap OpenVisit.ids := by
  obtain ⟨v, hv, hc⟩ := List.mem_flatMap.1 h
  refine List.mem_flatMap.2 ⟨v, hv, ?_⟩
  rw [← v.map_fst_claims]
  exact List.mem_map_of_mem hc

namespace SearchState.Owned

variable {st : SearchState}

/-- The ids in flight are those of the running visits. -/
theorem inFlightIds_perm (h : st.Owned) :
    st.session.inFlightIds.Perm (st.running.flatMap OpenVisit.ids) := by
  have hperm := h.inFlight.map Prod.fst
  rw [List.map_flatMap] at hperm
  simpa only [OpenVisit.map_fst_claims, Session.inFlightIds] using hperm

/-- The ids of running visits are claimed. -/
theorem isClaimed_of_mem (h : st.Owned) {id : QualifiedName}
    (hid : id ∈ st.running.flatMap OpenVisit.ids) : st.session.isClaimed id = true :=
  (st.session.isClaimed_iff).2 (.inl (h.inFlightIds_perm.mem_iff.2 hid))

/-- A bundle that is not claimed is held by no visit. -/
theorem notMem_of_free (h : st.Owned) {id : QualifiedName}
    (hid : st.session.isClaimed id = false) : id ∉ st.running.flatMap OpenVisit.ids := by
  intro hmem
  rw [h.isClaimed_of_mem hmem] at hid
  exact Bool.noConfusion hid

/-- Passing over items concerns bundles only that nobody holds. -/
theorem of_passes (h : st.Owned) {limit : Option Nat} {passed : List SearchItem} {t : Session}
    (hpasses : Session.Passes limit st.session passed t) : Owned { st with session := t } := by
  refine ⟨?_, h.distinct, ?_⟩
  · rw [hpasses.inFlight_eq]
    exact h.inFlight
  · intro id hid
    rw [hpasses.find?_eq_of_isClaimed (h.isClaimed_of_mem hid)]
    exact h.pending id hid

/-- Whether bundles are owned depends on the bundles in flight and on the outcomes only. -/
theorem congr (h : st.Owned) {s : Session} (hflight : s.inFlight = st.session.inFlight)
    (hvisited : s.visited = st.session.visited) : Owned { st with session := s } := by
  refine ⟨?_, h.distinct, ?_⟩
  · rw [hflight]
    exact h.inFlight
  · rw [hvisited]
    exact h.pending

/-- Claiming a free bundle for a new visit keeps every bundle owned once. -/
theorem claim_start (h : st.Owned) {item : SearchItem} {s : Session}
    (hfree : st.session.isClaimed item.bundleId = false)
    (hflight : s.inFlight = st.session.inFlight ++ [(item.bundleId, item)])
    (hvisited : s.visited = st.session.visited) :
    Owned { st with session := s, running := st.running ++ [.start item] } := by
  have hids : (st.running ++ [OpenVisit.start item]).flatMap OpenVisit.ids =
      st.running.flatMap OpenVisit.ids ++ [item.bundleId] := by
    simp [OpenVisit.start, OpenVisit.ids]
  refine ⟨?_, ?_, ?_⟩
  · rw [hflight]
    simpa [OpenVisit.start, OpenVisit.claims, OpenVisit.ids] using
      h.inFlight.append_right [(item.bundleId, item)]
  · show ((st.running ++ [OpenVisit.start item]).flatMap OpenVisit.ids).Nodup
    rw [hids]
    refine List.nodup_append.2 ⟨h.distinct, List.pairwise_singleton _ _, ?_⟩
    intro a ha b hb hab
    -- a bundle that is held is not free
    obtain rfl := List.mem_singleton.1 hb
    exact h.notMem_of_free hfree (hab ▸ ha)
  · intro id hid
    rw [hvisited]
    change id ∈ (st.running ++ [OpenVisit.start item]).flatMap OpenVisit.ids at hid
    rw [hids] at hid
    rcases List.mem_append.1 hid with hid | hid
    · exact h.pending id hid
    · obtain rfl := List.mem_singleton.1 hid
      exact ((st.session.isClaimed_eq_false_iff).1 hfree).2

/-- Claiming a free bundle as the version that a visit was led to keeps every bundle owned once. -/
theorem claim_version (h : st.Owned) {before after : List OpenVisit} {item : SearchItem}
    {id : QualifiedName} {stage : Stage} (hrunning : st.running = before ++ .start item :: after)
    (hfree : st.session.isClaimed id = false) :
    Owned { st with
      session := st.session.claim id item
      running := before ++ ⟨item, some id, stage⟩ :: after } := by
  -- the version is one more bundle, wherever the visit stands among the others
  have hids : ((before ++ ⟨item, some id, stage⟩ :: after).flatMap OpenVisit.ids).Perm
      (id :: st.running.flatMap OpenVisit.ids) := by
    rw [hrunning]
    simp only [List.flatMap_append, List.flatMap_cons, OpenVisit.ids, OpenVisit.start]
    exact (List.Perm.append_left _ (List.Perm.swap _ _ _)).trans List.perm_middle
  refine ⟨?_, ?_, ?_⟩
  · have hflight := h.inFlight.append_right [(id, item)]
    rw [hrunning] at hflight
    refine hflight.trans ?_
    simp only [List.flatMap_append, List.flatMap_cons, OpenVisit.claims, OpenVisit.ids,
      OpenVisit.start, List.append_assoc]
    refine List.Perm.append_left _ (List.Perm.cons _ ?_)
    exact List.perm_append_singleton _ _
  · exact hids.nodup_iff.2 (List.nodup_cons.2 ⟨h.notMem_of_free hfree, h.distinct⟩)
  · intro x hx
    rcases List.mem_cons.1 (hids.mem_iff.1 hx) with rfl | hx
    · exact ((st.session.isClaimed_eq_false_iff).1 hfree).2
    · exact h.pending x hx

/-- A visit whose stage changes holds what it held. -/
theorem set_stage (h : st.Owned) {before after : List OpenVisit} {v w : OpenVisit}
    (hrunning : st.running = before ++ v :: after) (hitem : w.item = v.item)
    (hversion : w.version = v.version) (verifier : Verifier) :
    Owned ⟨st.session, before ++ w :: after, verifier⟩ := by
  have hids : w.ids = v.ids := by rw [OpenVisit.ids, hitem, hversion]; rfl
  have hclaims : w.claims = v.claims := by rw [OpenVisit.claims, hids, hitem]; rfl
  have hall : (before ++ w :: after).flatMap OpenVisit.ids = st.running.flatMap OpenVisit.ids := by
    simp [hrunning, hids]
  refine ⟨?_, ?_, ?_⟩
  · have hflight := h.inFlight
    rw [hrunning] at hflight
    simpa [hclaims] using hflight
  · show ((before ++ w :: after).flatMap OpenVisit.ids).Nodup
    rw [hall]
    exact h.distinct
  · intro id hid
    change id ∈ (before ++ w :: after).flatMap OpenVisit.ids at hid
    rw [hall] at hid
    exact h.pending id hid

section Complete

variable {before after : List OpenVisit} {v : OpenVisit}

/-- What the other visits hold is none of what a visit holds. -/
theorem notMem_ids_of_others (h : st.Owned) (hrunning : st.running = before ++ v :: after)
    {id : QualifiedName} (hid : id ∈ (before ++ after).flatMap OpenVisit.ids) : id ∉ v.ids := by
  have hdistinct := h.distinct
  rw [hrunning, List.flatMap_append, List.flatMap_cons] at hdistinct
  obtain ⟨-, hrest, hbefore⟩ := List.nodup_append.1 hdistinct
  obtain ⟨-, -, hafter⟩ := List.nodup_append.1 hrest
  intro hheld
  rw [List.flatMap_append] at hid
  rcases List.mem_append.1 hid with hid | hid
  · exact hbefore id hid id (List.mem_append_left _ hheld) rfl
  · exact hafter id hheld id hid rfl

/-- Without the claims of a visit, those of the other visits are left. -/
theorem filter_claims (h : st.Owned) (hrunning : st.running = before ++ v :: after) :
    (st.running.flatMap OpenVisit.claims).filter (fun c => decide (c.1 ∉ v.ids)) =
      (before ++ after).flatMap OpenVisit.claims := by
  have hkept (visits : List OpenVisit) (hvisits : visits ⊆ before ++ after) :
      (visits.flatMap OpenVisit.claims).filter (fun c => decide (c.1 ∉ v.ids)) =
        visits.flatMap OpenVisit.claims := by
    refine List.filter_eq_self.2 fun c hc => decide_eq_true (h.notMem_ids_of_others hrunning ?_)
    obtain ⟨w, hw, hcw⟩ := List.mem_flatMap.1 (OpenVisit.fst_mem_of_mem_claims hc)
    exact List.mem_flatMap.2 ⟨w, hvisits hw, hcw⟩
  have hgiven : v.claims.filter (fun c => decide (c.1 ∉ v.ids)) = [] := by
    refine List.filter_eq_nil_iff.2 fun c hc => ?_
    have hheld : c.1 ∈ v.ids := by
      rw [← v.map_fst_claims]
      exact List.mem_map_of_mem hc
    simpa using hheld
  rw [hrunning, List.flatMap_append, List.flatMap_cons, List.filter_append, List.filter_append,
    hgiven, List.nil_append, hkept before (List.subset_append_left _ _),
    hkept after (List.subset_append_right _ _), ← List.flatMap_append]

/-- The end of a visit gives up what the visit held, and every other bundle stays owned. -/
theorem complete (h : st.Owned) (hrunning : st.running = before ++ v :: after)
    (outcome : Except BranchError Visit) :
    Owned { st with
      session := st.session.complete v.item.bundleId v.version outcome
      running := before ++ after } := by
  have hsub : (before ++ after).Sublist st.running := by
    rw [hrunning]
    exact (List.sublist_cons_self v after).append_left before
  refine ⟨?_, h.distinct.sublist (hsub.flatMap _), ?_⟩
  · have hflight := h.inFlight.filter fun c => decide (c.1 ∉ v.ids)
    rw [h.filter_claims hrunning] at hflight
    exact (st.session.complete_inFlight _ _ _).symm ▸ hflight
  · intro id hid
    show Visits.find? id (st.session.complete v.item.bundleId v.version outcome).visited = none
    rw [Session.complete_visited, Visits.find?_insertAll_of_notMem]
    · exact h.pending id ((hsub.flatMap _).subset hid)
    · intro hending
      exact h.notMem_ids_of_others hrunning hid (Visit.map_fst_endings_subset _ _ _ hending)

end Complete

/-- Every change keeps every bundle owned once. -/
theorem change {st' : SearchState} {e : Event} (h : st.Owned) (hchange : Change f p st e st') :
    st'.Owned := by
  cases hchange with
  | claimed passes front free top within => exact (h.of_passes passes).claim_start free rfl rfl
  | returned passes front free outranked => exact (h.of_passes passes).congr rfl rfl
  | exhausted passes empty => exact h.of_passes passes
  | @followed before after item v s running result =>
    obtain ⟨hitem, -⟩ := followReference_founded result
    rcases followReference_claims result with ⟨hversion, rfl⟩ | ⟨id, hversion, -, hfree, rfl⟩
    · exact h.set_stage running hitem hversion st.verifier
    · obtain ⟨vitem, version, stage⟩ := v
      obtain rfl : vitem = item := hitem
      obtain rfl : version = some id := hversion
      exact h.claim_version running hfree
  | examined running => exact h.set_stage (w := ⟨_, _, .settled _⟩) running rfl rfl _
  | ended running => exact h.complete running _
  | elsewhere call => exact ⟨h.inFlight, h.distinct, h.pending⟩

/-- At the start nothing is claimed, so all that is claimed is owned. -/
theorem initial (frontier : Frontier) (v : Verifier) :
    (SearchState.initial (.start frontier) v).Owned :=
  ⟨.refl _, .nil, by simp [SearchState.initial]⟩

/-- Once no visit is under way, every claimed bundle has an outcome. -/
theorem has_of_isClaimed (h : st.Owned) (hdone : st.running = []) {id : QualifiedName}
    (hid : st.session.isClaimed id = true) : Visits.has id st.session.visited = true := by
  refine ((st.session.isClaimed_iff).1 hid).resolve_left fun hflight => ?_
  have hheld := h.inFlightIds_perm.mem_iff.1 hflight
  rw [hdone] at hheld
  cases hheld

/-- A bundle in flight is held by one visit, any other one by none. -/
theorem countP_running (h : st.Owned) (id : QualifiedName) :
    st.running.countP (fun v => id ∈ v.ids) = if st.session.isInFlight id then 1 else 0 := by
  have hmem : st.session.isInFlight id = true ↔ id ∈ st.running.flatMap OpenVisit.ids := by
    rw [Session.isInFlight_iff, h.inFlightIds_perm.mem_iff]
  simp only [hmem]
  -- what is left concerns lists only: a bundle of the first visit is none of those of the others
  have hdistinct := h.distinct
  generalize st.running = visits at hdistinct
  induction visits with
  | nil => simp
  | cons v rest ih =>
    rw [List.flatMap_cons] at hdistinct ⊢
    obtain ⟨-, hrest, hdisjoint⟩ := List.nodup_append.1 hdistinct
    rw [List.countP_cons, ih hrest]
    by_cases hv : id ∈ v.ids
    · have hnot : id ∉ rest.flatMap OpenVisit.ids := fun hid => hdisjoint id hv id hid rfl
      simp only [hv, decide_true, if_true, List.mem_append, hnot, or_false, if_false]
    · simp only [hv, decide_false, List.mem_append, false_or]
      rfl

end SearchState.Owned

/-! ## Outcomes and answers -/

/-- Where an outcome comes from that is there after a change. -/
inductive OutcomeOrigin (st : SearchState) (e : Event) (id : QualifiedName) (outcome : VisitOutcome) :
    Prop where
  /-- it was there before -/
  | earlier (found : Visits.find? id st.session.visited = some outcome)
  /-- an item that waited was skipped -/
  | skipped {item : SearchItem} {code message : String} (mem : item ∈ st.session.frontier.items)
      (bundle : item.bundleId = id) (eq : outcome = .skipped code message)
  /-- a visit ended and recorded it -/
  | ended {item : SearchItem} {version : Option QualifiedName} {result : Except BranchError Visit}
      {admitted : List SearchItem} (event : e = .ended item version result admitted)
      (mem : OpenVisit.mk item version (.settled result) ∈ st.running)
      (ending : (id, outcome) ∈ Visit.endings item.bundleId version result)

namespace Change

variable {st st' : SearchState} {e : Event}

/-- An outcome that has been recorded stays. -/
theorem outcome_kept (howned : st.Owned) (h : Change f p st e st') {id : QualifiedName}
    {outcome : VisitOutcome} (hid : Visits.find? id st.session.visited = some outcome) :
    Visits.find? id st'.session.visited = some outcome := by
  have hclaimed : st.session.isClaimed id = true :=
    (st.session.isClaimed_iff).2 (.inr (by simp [hid]))
  cases h with
  | claimed passes front free top within => exact (passes.find?_eq_of_isClaimed hclaimed).trans hid
  | returned passes front free outranked => exact (passes.find?_eq_of_isClaimed hclaimed).trans hid
  | exhausted passes empty => exact (passes.find?_eq_of_isClaimed hclaimed).trans hid
  | followed running result =>
    obtain ⟨-, hvisited, -⟩ := followReference_frame result
    rw [← hid, ← hvisited]
  | examined running => exact hid
  | @ended before after item version outcome' running =>
    show Visits.find? id (st.session.complete item.bundleId version outcome').visited = some outcome
    rw [Session.complete_visited, Visits.find?_insertAll_of_notMem, hid]
    intro hending
    have hheld : id ∈ st.running.flatMap OpenVisit.ids := by
      rw [running, List.flatMap_append, List.flatMap_cons]
      exact List.mem_append_right _
        (List.mem_append_left _ (Visit.map_fst_endings_subset _ _ _ hending))
    rw [howned.pending id hheld] at hid
    cases hid
  | elsewhere call => exact hid

/-- Every outcome after a change has one of the three origins. -/
theorem outcomeOrigin (h : Change f p st e st') {id : QualifiedName} {outcome : VisitOutcome}
    (hid : Visits.find? id st'.session.visited = some outcome) : OutcomeOrigin st e id outcome := by
  have hpasses {passed : List SearchItem} {t : Session}
      (passes : Session.Passes f.settings.maxVisited st.session passed t)
      (ht : Visits.find? id t.visited = some outcome) : OutcomeOrigin st e id outcome := by
    rcases passes.find?_or_skipped ht with hbefore | ⟨⟨item, hitem, hbundle⟩, code, message, heq⟩
    · exact .earlier hbefore
    · refine .skipped ?_ hbundle heq
      rw [passes.items_eq]
      exact List.mem_append_left _ hitem
  cases h with
  | claimed passes front free top within => exact hpasses passes hid
  | returned passes front free outranked => exact hpasses passes hid
  | exhausted passes empty => exact hpasses passes hid
  | followed running result =>
    obtain ⟨-, hvisited, -⟩ := followReference_frame result
    exact .earlier (hvisited ▸ hid)
  | examined running => exact .earlier hid
  | @ended before after item version result running =>
    change Visits.find? id (st.session.complete item.bundleId version result).visited = _ at hid
    rw [Session.complete_visited] at hid
    rcases Visits.mem_or_find?_of_find?_insertAll hid with hending | hbefore
    · exact .ended rfl (by simp [running]) hending
    · exact .earlier hbefore
  | elsewhere call => exact .earlier hid

/-- What is claimed stays claimed: a visit that gives a bundle up leaves an outcome for it. -/
theorem isClaimed_mono (hlaid : st.Laid f p) (howned : st.Owned) (h : Change f p st e st')
    {id : QualifiedName} (hid : st.session.isClaimed id = true) : st'.session.isClaimed id = true := by
  cases h with
  | @claimed passed rest t item passes front free top within =>
    exact ((t.withItems rest).isClaimed_claim_iff).2 (.inl (passes.isClaimed_mono hid))
  | returned passes front free outranked => exact passes.isClaimed_mono hid
  | exhausted passes empty => exact passes.isClaimed_mono hid
  | @followed before after item v s running result =>
    rcases followReference_claims result with ⟨-, rfl⟩ | ⟨version, -, -, -, rfl⟩
    · exact hid
    · exact (st.session.isClaimed_claim_iff).2 (.inl hid)
  | examined running => exact hid
  | @ended before after item version outcome running =>
    have hsettled : OpenVisit.mk item version (.settled outcome) ∈ st.running := by simp [running]
    have hended := Change.ended (f := f) (p := p) running
    rw [Session.isClaimed_iff] at hid ⊢
    rcases hid with hflight | hdone
    · by_cases hheld : id ∈ item.bundleId :: version.toList
      · -- the visit gives the bundle up and leaves an outcome
        right
        show (Visits.find? id (st.session.complete item.bundleId version outcome).visited).isSome
        rw [Session.complete_visited]
        exact Visits.isSome_find?_insertAll ((hlaid.founded _ hsettled).ids_subset_endings hheld)
      · -- another visit goes on holding it
        left
        show id ∈ (st.session.complete item.bundleId version outcome).inFlightIds
        obtain ⟨c, hc, rfl⟩ := List.mem_map.1 hflight
        rw [Session.inFlightIds, Session.complete_inFlight]
        exact List.mem_map_of_mem (List.mem_filter.2 ⟨hc, decide_eq_true hheld⟩)
    · obtain ⟨o, ho⟩ := Option.isSome_iff_exists.1 hdone
      exact .inr (Option.isSome_iff_exists.2 ⟨o, hended.outcome_kept howned ho⟩)
  | elsewhere call => exact hid

/-- A bundle that is in flight after a change was so before or is claimed by the change. -/
theorem mem_inFlight (h : Change f p st e st') {c : QualifiedName × SearchItem}
    (hc : c ∈ st'.session.inFlight) : c ∈ st.session.inFlight ∨ c ∈ e.claims := by
  cases h with
  | claimed passes front free top within =>
    rw [← passes.inFlight_eq]
    exact List.mem_append.1 hc
  | returned passes front free outranked => exact .inl (passes.inFlight_eq ▸ hc)
  | exhausted passes empty => exact .inl (passes.inFlight_eq ▸ hc)
  | @followed before after item v s running result =>
    rcases followReference_claims result with ⟨-, rfl⟩ | ⟨id, hversion, -, -, rfl⟩
    · exact .inl hc
    · rw [Event.claims, hversion]
      exact List.mem_append.1 hc
  | examined running => exact .inl hc
  | @ended before after item version outcome running =>
    change c ∈ (st.session.complete item.bundleId version outcome).inFlight at hc
    rw [Session.complete_inFlight] at hc
    exact .inl (List.mem_of_mem_filter hc)
  | elsewhere call => exact .inl hc

end Change

/-- The outcome that an answer calls for. -/
def FoundResult.outcome (r : FoundResult) : VisitOutcome :=
  if r.result.isEmpty then .notFound else .found

/-- Each bundle has one answer at most, and with an answer the outcome that it calls for. -/
structure Session.Reported (s : Session) : Prop where
  distinct : (s.results.map FoundResult.bundleId).Nodup
  outcome : ∀ r ∈ s.results, Visits.find? r.bundleId s.visited = some r.outcome

/-- The end of a visit with an answer keeps answers and outcomes in accord: the bundle of the answer had
neither, since the visit was holding it. -/
theorem Session.Reported.answered {st : SearchState} (h : st.session.Reported) (hlaid : st.Laid f p)
    (howned : st.Owned) {before after : List OpenVisit} {item : SearchItem}
    {version : Option QualifiedName} {r : FoundResult} {found : Bool} {children : List SearchItem}
    (running : st.running =
      before ++ ⟨item, version, .settled (.ok (.searched (some r) found children))⟩ :: after) :
    (st.session.complete item.bundleId version (.ok (.searched (some r) found children))).Reported := by
  have hmem : OpenVisit.mk item version (.settled (.ok (.searched (some r) found children))) ∈
      st.running := by simp [running]
  obtain ⟨hbundle, hfound, -, -⟩ := (hlaid.founded _ hmem).result_spec
  have hended := Change.ended (f := f) (p := p) running
  have hheld : r.bundleId ∈ st.running.flatMap OpenVisit.ids := by
    refine List.mem_flatMap.2 ⟨_, hmem, ?_⟩
    rw [hbundle, OpenVisit.ids]
    cases version <;> simp
  -- an answer of before would have left an outcome, but the visit still holds the bundle
  have hnew : r.bundleId ∉ st.session.results.map FoundResult.bundleId := by
    intro hr
    obtain ⟨r', hr', heq⟩ := List.mem_map.1 hr
    have hnone := howned.pending _ hheld
    rw [← heq, h.outcome r' hr'] at hnone
    cases hnone
  have hresults := st.session.complete_results item.bundleId version
    (.ok (.searched (some r) found children))
  rw [Visit.result?, Option.toList_some] at hresults
  refine ⟨?_, ?_⟩
  · rw [hresults, List.map_append, List.map_singleton]
    refine List.nodup_append.2 ⟨h.distinct, List.pairwise_singleton _ _, ?_⟩
    intro a ha b hb hab
    obtain rfl := List.mem_singleton.1 hb
    exact hnew (hab ▸ ha)
  · intro r' hr'
    rw [hresults] at hr'
    rcases List.mem_append.1 hr' with hr' | hr'
    · exact hended.outcome_kept howned (h.outcome r' hr')
    · obtain rfl := List.mem_singleton.1 hr'
      rw [Session.complete_visited, Visit.endings, ← hbundle, Visits.find?_insertAll_concat,
        hfound, FoundResult.outcome]
      cases r'.result.isEmpty <;> rfl

/-- Every change keeps the answers and the outcomes in accord. -/
theorem Session.Reported.change {st st' : SearchState} {e : Event} (h : st.session.Reported)
    (hlaid : st.Laid f p) (howned : st.Owned) (hchange : Change f p st e st') :
    st'.session.Reported := by
  have hkept (hresults : st'.session.results = st.session.results) : st'.session.Reported := by
    refine ⟨by rw [hresults]; exact h.distinct, ?_⟩
    intro r hr
    rw [hresults] at hr
    exact hchange.outcome_kept howned (h.outcome r hr)
  cases hchange with
  | claimed passes front free top within => exact hkept passes.results_eq
  | returned passes front free outranked => exact hkept passes.results_eq
  | exhausted passes empty => exact hkept passes.results_eq
  | followed running result => exact hkept (followReference_frame result).2.2
  | examined running => exact hkept rfl
  | @ended before after item version outcome running =>
    have hresults := st.session.complete_results item.bundleId version outcome
    rcases outcome with e | (target | ⟨result, found, children⟩)
    · exact hkept (by simpa [Visit.result?] using hresults)
    · exact hkept (by simpa [Visit.result?] using hresults)
    · cases result with
      | none => exact hkept (by simpa [Visit.result?] using hresults)
      | some r => exact h.answered hlaid howned running
  | elsewhere call => exact hkept rfl

/-! ## Runs and reports -/

/-- A report has one answer at most from each bundle, and for a bundle with an answer the outcome that the
answer calls for. -/
def SearchReport.Consistent (report : SearchReport) : Prop :=
  ∀ id, (report.resultsFrom id).length ≤ 1 ∧
    ∀ r ∈ report.resultsFrom id, report.outcome? id = some r.outcome

/-- What a session reports of its answers is consistent, also when only the first ones are reported. -/
theorem Session.Reported.consistent {s : Session} (h : s.Reported) (settings : SearchSettings)
    (late : Bool) : (Engine.reportOf settings late s).Consistent := by
  have hsub : (Engine.reportOf settings late s).results.Sublist s.results := by
    unfold Engine.reportOf
    cases settings.maxResults with
    | none => exact .refl _
    | some n => exact List.take_sublist n _
  intro id
  refine ⟨?_, ?_⟩
  · have hcount := List.nodup_iff_count_le_one.1 (h.distinct.sublist (hsub.map _)) id
    rwa [List.count, List.countP_map, List.countP_eq_length_filter] at hcount
  · intro r hr
    obtain ⟨hmem, hid⟩ := List.mem_filter.1 hr
    obtain rfl : r.bundleId = id := beq_iff_eq.1 hid
    exact h.outcome r (hsub.subset hmem)

namespace Run

variable {start st : SearchState} {es : List Event}

/-- Every run keeps what is claimed owned. -/
theorem owned (hlaid : start.Laid f p) (howned : start.Owned) (h : Run f p start es st) : st.Owned :=
  h.induct (motive := fun _ st => st.Owned) hlaid howned fun _ _ _ _ _ ih hchange => ih.change hchange

/-- An outcome that has been recorded stays throughout a run. -/
theorem outcome_kept (hlaid : start.Laid f p) (howned : start.Owned) (h : Run f p start es st)
    {id : QualifiedName} {outcome : VisitOutcome}
    (hid : Visits.find? id start.session.visited = some outcome) :
    Visits.find? id st.session.visited = some outcome := by
  have hboth : st.Owned ∧ Visits.find? id st.session.visited = some outcome := by
    refine h.induct (motive := fun _ st =>
      st.Owned ∧ Visits.find? id st.session.visited = some outcome) hlaid ⟨howned, hid⟩ ?_
    intro es st e st' _ ih hchange
    exact ⟨ih.1.change hchange, hchange.outcome_kept ih.1 ih.2⟩
  exact hboth.2

/-- Every run keeps the report in step with the outcomes. -/
theorem reported (hlaid : start.Laid f p) (howned : start.Owned) (hreported : start.session.Reported)
    (h : Run f p start es st) : st.session.Reported := by
  have hboth : st.Owned ∧ st.session.Reported := by
    refine h.induct (motive := fun _ st => st.Owned ∧ st.session.Reported) hlaid
      ⟨howned, hreported⟩ ?_
    intro es st e st' hlaid ih hchange
    exact ⟨ih.1.change hchange, ih.2.change hlaid ih.1 hchange⟩
  exact hboth.2

end Run

namespace Engine

variable {r : SearchRequest} {s : Session} {v : Verifier} {es : List Event} {st : SearchState}

/-- A search starts with nothing owned, so every bundle stays owned once. -/
theorem owned_of_prepare (hprepare : prepare f r = .ok (p, s)) (hrun : Run f p (.initial s v) es st) :
    st.Owned := by
  have hlaid := laid_of_prepare (v := v) hprepare
  obtain ⟨entry, -, rfl⟩ := prepare_eq_ok hprepare
  exact hrun.owned hlaid (.initial _ v)

/-- The report of a search is in step with the outcomes at any time. -/
theorem reported_of_prepare (hprepare : prepare f r = .ok (p, s))
    (hrun : Run f p (.initial s v) es st) : st.session.Reported := by
  have hlaid := laid_of_prepare (v := v) hprepare
  obtain ⟨entry, -, rfl⟩ := prepare_eq_ok hprepare
  exact hrun.reported hlaid (.initial _ v) ⟨.nil, by simp [SearchState.initial, Session.start]⟩

/-- **Bundles are owned once and answered once.** After every run of a search, no bundle is both in flight
and done, each bundle in flight is held by exactly one of the visits under way, and an outcome stays as it
was recorded whatever happens afterwards. So every report is consistent, both of the session as it stands
and of a scheduled search. -/
theorem owned_once_and_answered_once (hprepare : prepare f r = .ok (p, s))
    (hrun : Run f p (.initial s v) es st) :
    (∀ id, ¬(st.session.isInFlight id = true ∧ Visits.has id st.session.visited = true)) ∧
      (∀ id, st.running.countP (fun v => id ∈ v.ids) =
        if st.session.isInFlight id then 1 else 0) ∧
      (∀ es' st', Run f p st es' st' → ∀ id outcome,
        Visits.find? id st.session.visited = some outcome →
          Visits.find? id st'.session.visited = some outcome) ∧
      (∀ late, (reportOf f.settings late st.session).Consistent) ∧
      ∀ (e e' : Engine) (report : SearchReport), e.federation = f →
        e.search r = (.ok report, e') → report.Consistent := by
  have howned := owned_of_prepare hprepare hrun
  have hlaid := hrun.laid (laid_of_prepare hprepare)
  refine ⟨?_, howned.countP_running, ?_, ?_, ?_⟩
  · rintro id ⟨hflight, hdone⟩
    have hheld := howned.inFlightIds_perm.mem_iff.1 ((st.session.isInFlight_iff).1 hflight)
    rw [Visits.has, howned.pending id hheld] at hdone
    cases hdone
  · intro es' st' hlater id outcome hid
    exact hlater.outcome_kept hlaid howned hid
  · exact (reported_of_prepare hprepare hrun).consistent f.settings
  · intro e e' report hfederation hsearch
    obtain ⟨p', s', es', st', hprepare', hrun', late, rfl⟩ := search_run hsearch
    exact (reported_of_prepare hprepare' hrun').consistent _ late

/-- `C` is in flight, and `B` is done, after the first visits of the small federation. -/
theorem sample_owned_once_and_answered_once :
    ∃ es st, Run Sample.federation Sample.plan (.initial Sample.session Sample.verifier) es st ∧
      st.session.isInFlight (Sample.document "C") = true ∧
      Visits.has (Sample.document "B") st.session.visited = true ∧
      st.running.countP (fun v => Sample.document "C" ∈ v.ids) = 1 ∧
      (reportOf Sample.federation.settings false st.session).Consistent := by
  have hplay : (SearchState.play Sample.federation Sample.plan
      (.initial Sample.session Sample.verifier) Sample.opening).any (fun r =>
        r.2.session.isInFlight (Sample.document "C") &&
          Visits.has (Sample.document "B") r.2.session.visited) = true := by
    decide +kernel
  obtain ⟨⟨es, st⟩, hst, hflight⟩ :=
    (Option.any_eq_true _ _).1 hplay
  obtain ⟨hC, hB⟩ := Bool.and_eq_true_iff.1 hflight
  have hrun := Run.of_play hst
  obtain ⟨-, hheld, -, hreport, -⟩ :=
    owned_once_and_answered_once Sample.prepare_request hrun
  refine ⟨es, st, hrun, hC, hB, ?_, hreport false⟩
  rw [hheld, if_pos hC]

end Engine

end ProvenanceTrail
