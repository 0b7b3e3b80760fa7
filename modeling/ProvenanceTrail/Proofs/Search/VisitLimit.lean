import ProvenanceTrail.Proofs.Search.Failures
import ProvenanceTrail.Proofs.Search.Loop

/-!
# The limit of visits

A limit of `n` visits lets exactly the first `n` claims through. Once they are made, a claim passes over all
items that wait, and skips the bundles that nobody has claimed. The limit counts started visits, not claimed
bundles: a version that a visit claims on the way does not count. `Session.Passes.find?_or_limit` says where an
outcome comes from that a claim leaves behind, and `SearchState.Limited` is what holds throughout a run:
the limit skips a bundle just when it has an outcome without ever having been claimed, and then as many
visits as are allowed have been started.
-/

namespace ProvenanceTrail

variable {f : Federation} {p : SearchPlan}

/-! ## Outcomes and events -/

/-- The outcome of a bundle that may not be visited any more. -/
def VisitOutcome.ofLimit (n : Nat) : VisitOutcome :=
  .skipped (BranchError.visitLimit n).code (BranchError.visitLimit n).message

/-- Whether the bundle was searched. -/
def VisitOutcome.isSearched : VisitOutcome → Bool
  | .found | .notFound => true
  | _ => false

/-- The bundles that were searched. -/
def Visits.searched (visits : Visits) : List QualifiedName :=
  (visits.filter fun v => v.2.isSearched).map Prod.fst

/-- No visit fails with the code of the limit. -/
theorem OpenVisit.Fails.code_ne {verifier : Verifier} {v : OpenVisit} {e : BranchError}
    (h : v.Fails f p verifier e) : e.code ≠ "MAX_VISITED" := by
  obtain ⟨item, version, stage⟩ := v
  cases stage with
  | claimed => cases h <;> simp [BranchError.code]
  | located l => cases h <;> simp [BranchError.code]
  | settled outcome => exact h.elim

/-- The end of a visit skips no bundle with the code of the limit. -/
theorem OpenVisit.Founded.isSkippedWith_endings {item : SearchItem} {version : Option QualifiedName}
    {result : Except BranchError Visit} (h : Founded f p ⟨item, version, .settled result⟩)
    {id : QualifiedName} {outcome : VisitOutcome}
    (hending : (id, outcome) ∈ Visit.endings item.bundleId version result) :
    outcome.isSkippedWith "MAX_VISITED" = false := by
  rcases result with e | (target | ⟨answer, found, children⟩)
  · obtain ⟨_, -, heq⟩ := List.mem_map.1 hending
    obtain ⟨-, rfl⟩ := Prod.mk.inj heq
    obtain ⟨stage, verifier, hfails⟩ := h.exists_fails rfl ⟨⟨[], true⟩, none⟩
    simpa [VisitOutcome.isSkippedWith] using hfails.code_ne
  · obtain ⟨-, rfl⟩ := Prod.mk.inj (List.mem_singleton.1 hending)
    rfl
  · rcases List.mem_append.1 hending with hredirect | hsearch
    · obtain ⟨_, -, heq⟩ := List.mem_map.1 hredirect
      obtain ⟨-, rfl⟩ := Prod.mk.inj heq
      rfl
    · obtain ⟨-, rfl⟩ := Prod.mk.inj (List.mem_singleton.1 hsearch)
      cases found <;> rfl

namespace Event

/-- The item of the visit that has made a move. -/
def visited? : Event → Option SearchItem
  | .claimed _ item | .followed item _ | .examined item _ | .ended item _ _ _ => some item
  | _ => none

/-- The bundle that a visit has searched. -/
def searched? : Event → Option QualifiedName
  | .ended item version (.ok (.searched _ _ _)) _ => some (version.getD item.bundleId)
  | _ => none

end Event

/-! ## What passing over items leaves behind -/

namespace Session

/-- An outcome that is there after passing over items was there before, or the limit was reached and the
bundle was free. -/
theorem Passes.find?_or_limit {limit : Option Nat} {s t : Session} {passed : List SearchItem}
    (h : Passes limit s passed t) {id : QualifiedName} {outcome : VisitOutcome}
    (hid : Visits.find? id t.visited = some outcome) :
    Visits.find? id s.visited = some outcome ∨
      s.isClaimed id = false ∧
        ∃ n, limit.filter (· ≤ s.started) = some n ∧ outcome = .ofLimit n := by
  induction h with
  | nil s => exact .inl hid
  | drop _ _ _ ih => exact ih hid
  | @skip s t item rest passed n _ free _ reached _ ih =>
    rcases ih hid with hbefore | ⟨hfree, hlimit⟩
    · rw [Session.skip, record, Visits.find?_insert] at hbefore
      split at hbefore
      · rename_i hsame
        exact .inr ⟨hsame ▸ free, n, reached, (Option.some.inj hbefore).symm⟩
      · exact .inl hbefore
    · -- what is free after a bundle was skipped was free before
      refine .inr ⟨?_, hlimit⟩
      rw [isClaimed_eq_false_iff, Session.skip, record] at hfree
      rw [isClaimed_eq_false_iff]
      refine ⟨hfree.1, ?_⟩
      have hnone := hfree.2
      rw [Visits.find?_insert] at hnone
      split at hnone
      · cases hnone
      · exact hnone

end Session

/-! ## What a change does to the count and the outcomes -/

namespace Change

variable {st st' : SearchState} {e : Event}

/-- Every claim of an item starts a visit, and nothing else does. -/
theorem started_eq (h : Change f p st e st') :
    st'.session.started = st.session.started + e.claimed?.toList.length := by
  cases h with
  | claimed passes front free top within => exact congrArg (· + 1) passes.started_eq
  | returned passes front free outranked => exact passes.started_eq
  | exhausted passes empty => exact passes.started_eq
  | followed running result =>
    rcases followReference_claims result with ⟨-, rfl⟩ | ⟨id, -, -, -, rfl⟩ <;> rfl
  | examined running => rfl
  | ended running => exact Session.complete_started _ _ _ _
  | elsewhere call => rfl

/-- A visit is started only while fewer visits than allowed have been. -/
theorem started_lt_of_claimed (h : Change f p st e st') {item : SearchItem}
    (hitem : e.claimed? = some item) {n : Nat} (hlimit : f.settings.maxVisited = some n) :
    st.session.started < n := by
  cases h with
  | claimed passes front free top within =>
    rw [hlimit, passes.started_eq] at within
    simpa [Option.filter] using within
  | returned | exhausted | followed | examined | ended | elsewhere => cases hitem

/-- No change starts more visits than the limit. -/
theorem started_le (h : Change f p st e st') {n : Nat} (hlimit : f.settings.maxVisited = some n)
    (hn : st.session.started ≤ n) : st'.session.started ≤ n := by
  rw [h.started_eq]
  cases hitem : e.claimed? with
  | none => exact hn
  | some item => exact h.started_lt_of_claimed hitem hlimit

/-- What is claimed has no outcome yet. -/
theorem find?_eq_none_of_mem_claims (h : Change f p st e st') {c : QualifiedName × SearchItem}
    (hc : c ∈ e.claims) : Visits.find? c.1 st'.session.visited = none := by
  cases h with
  | @claimed passed rest t item passes front free top within =>
    obtain rfl := List.mem_singleton.1 hc
    exact ((t.isClaimed_eq_false_iff).1 free).2
  | @followed before after item v s running result =>
    rcases followReference_claims result with ⟨hversion, -⟩ | ⟨id, hversion, -, hfree, rfl⟩
    · simp [Event.claims, hversion] at hc
    · obtain rfl : c = (id, item) := by simpa [Event.claims, hversion] using hc
      exact ((st.session.isClaimed_eq_false_iff).1 hfree).2
  | returned | exhausted | examined | ended | elsewhere => cases hc

/-- Where an outcome comes from. It was there before; or the bundle was free and is skipped since the limit
is reached; or a visit that held the bundle ends. -/
theorem earlier_or_limit_or_ended (h : Change f p st e st') {id : QualifiedName}
    {outcome : VisitOutcome} (hid : Visits.find? id st'.session.visited = some outcome) :
    Visits.find? id st.session.visited = some outcome ∨
      (st.session.isClaimed id = false ∧
        ∃ n, f.settings.maxVisited.filter (· ≤ st.session.started) = some n ∧
          outcome = .ofLimit n) ∨
      ∃ item version result admitted, e = .ended item version result admitted ∧
        OpenVisit.mk item version (.settled result) ∈ st.running ∧
        (id, outcome) ∈ Visit.endings item.bundleId version result := by
  cases h with
  | claimed passes front free top within => exact (passes.find?_or_limit hid).imp_right .inl
  | returned passes front free outranked => exact (passes.find?_or_limit hid).imp_right .inl
  | exhausted passes empty => exact (passes.find?_or_limit hid).imp_right .inl
  | followed running result =>
    obtain ⟨-, hvisited, -⟩ := followReference_frame result
    exact .inl (hvisited ▸ hid)
  | examined running => exact .inl hid
  | @ended before after item version result running =>
    change Visits.find? id (st.session.complete item.bundleId version result).visited = _ at hid
    rw [Session.complete_visited] at hid
    rcases Visits.mem_or_find?_of_find?_insertAll hid with hending | hbefore
    · exact .inr (.inr ⟨item, version, result, _, rfl, by simp [running], hending⟩)
    · exact .inl hbefore
  | elsewhere call => exact .inl hid

end Change

/-! ## What holds throughout a run -/

/-- The limit is kept and tells on the bundles that were never claimed: those with an outcome have been
skipped since all visits that are allowed were started. -/
structure SearchState.Limited (n : Nat) (es : List Event) (st : SearchState) : Prop where
  started : st.session.started = (claimedItems es).length
  within : st.session.started ≤ n
  claimed : ∀ c ∈ claimsOf es, st.session.isClaimed c.1 = true
  /-- a bundle that was claimed is not skipped for the limit -/
  searched : ∀ id outcome, Visits.find? id st.session.visited = some outcome →
    id ∈ (claimsOf es).map Prod.fst → outcome.isSkippedWith "MAX_VISITED" = false
  /-- a bundle that was never claimed has an outcome only for the limit -/
  skipped : ∀ id outcome, Visits.find? id st.session.visited = some outcome →
    id ∉ (claimsOf es).map Prod.fst → outcome = .ofLimit n ∧ st.session.started = n

namespace SearchState.Limited

variable {n : Nat} {s : Session} {st st' : SearchState} {es : List Event} {e : Event}

/-- What the end of a visit records is of bundles that were claimed. -/
theorem mem_claimsOf_of_endings (htracked : st.Tracked p s es) (howned : st.Owned) {item : SearchItem}
    {version : Option QualifiedName} {result : Except BranchError Visit}
    (hmem : OpenVisit.mk item version (.settled result) ∈ st.running) {id : QualifiedName}
    {outcome : VisitOutcome} (hending : (id, outcome) ∈ Visit.endings item.bundleId version result) :
    id ∈ (claimsOf es).map Prod.fst := by
  have hheld : id ∈ item.bundleId :: version.toList :=
    Visit.map_fst_endings_subset _ _ _ (List.mem_map_of_mem (f := Prod.fst) hending)
  have hflight : (id, item) ∈ st.session.inFlight :=
    howned.inFlight.mem_iff.2 (List.mem_flatMap.2 ⟨_, hmem, List.mem_map_of_mem hheld⟩)
  exact List.mem_map_of_mem (f := Prod.fst) (htracked.held _ hflight)

/-- When the limit is reached, as many visits as are allowed were started. -/
theorem eq_of_reached (h : st.Limited n es) {k : Nat}
    (hreached : (some n).filter (· ≤ st.session.started) = some k) :
    k = n ∧ st.session.started = n := by
  obtain ⟨hk, hle⟩ := Option.filter_eq_some_iff.1 hreached
  obtain rfl := Option.some.inj hk
  exact ⟨rfl, Nat.le_antisymm h.within (of_decide_eq_true hle)⟩

/-- Every change keeps the limit. -/
theorem change (h : st.Limited n es) (hlimit : f.settings.maxVisited = some n) (hlaid : st.Laid f p)
    (howned : st.Owned) (htracked : st.Tracked p s es) (hchange : Change f p st e st') :
    st'.Limited n (es ++ [e]) := by
  have hwithin := hchange.started_le hlimit h.within
  have hmono : st.session.started ≤ st'.session.started :=
    (Nat.le_add_right _ _).trans_eq hchange.started_eq.symm
  -- the change claims no bundle that has an outcome afterwards
  have hclaims {id : QualifiedName} {outcome : VisitOutcome}
      (hid : Visits.find? id st'.session.visited = some outcome) :
      id ∈ (claimsOf (es ++ [e])).map Prod.fst ↔ id ∈ (claimsOf es).map Prod.fst := by
    simp only [List.mem_map, mem_claimsOf_concat]
    refine ⟨?_, fun ⟨c, hc, hfst⟩ => ⟨c, .inl hc, hfst⟩⟩
    rintro ⟨c, hc | hc, rfl⟩
    · exact ⟨c, hc, rfl⟩
    · rw [hchange.find?_eq_none_of_mem_claims hc] at hid
      cases hid
  refine ⟨?_, hwithin, ?_, ?_, ?_⟩
  · rw [hchange.started_eq, h.started, claimedItems_concat, List.length_append]
  · intro c hc
    rcases mem_claimsOf_concat.1 hc with hc | hc
    · exact hchange.isClaimed_mono hlaid howned (h.claimed c hc)
    · exact hchange.isClaimed_of_mem_claims hc
  · intro id outcome hid hclaimed
    rw [hclaims hid] at hclaimed
    rcases hchange.earlier_or_limit_or_ended hid with
      hbefore | ⟨hfree, -⟩ | ⟨item, version, result, admitted, rfl, hmem, hending⟩
    · exact h.searched id outcome hbefore hclaimed
    · obtain ⟨c, hc, rfl⟩ := List.mem_map.1 hclaimed
      rw [h.claimed c hc] at hfree
      cases hfree
    · exact (hlaid.founded _ hmem).isSkippedWith_endings hending
  · intro id outcome hid hfree
    rw [hclaims hid] at hfree
    rcases hchange.earlier_or_limit_or_ended hid with
      hbefore | ⟨-, k, hreached, rfl⟩ | ⟨item, version, result, admitted, rfl, hmem, hending⟩
    · obtain ⟨houtcome, hstarted⟩ := h.skipped id outcome hbefore hfree
      exact ⟨houtcome, Nat.le_antisymm hwithin (hstarted ▸ hmono)⟩
    · obtain ⟨rfl, hstarted⟩ := h.eq_of_reached (hlimit ▸ hreached)
      exact ⟨rfl, Nat.le_antisymm hwithin (hstarted ▸ hmono)⟩
    · exact absurd (mem_claimsOf_of_endings htracked howned hmem hending) hfree

/-- A bundle that was skipped for the limit was never claimed, and all visits that are allowed were
started. -/
theorem of_isSkippedWith (h : st.Limited n es) {id : QualifiedName} {outcome : VisitOutcome}
    (hid : Visits.find? id st.session.visited = some outcome)
    (hcode : outcome.isSkippedWith "MAX_VISITED" = true) :
    id ∉ (claimsOf es).map Prod.fst ∧ (claimedItems es).length = n := by
  have hfree : id ∉ (claimsOf es).map Prod.fst := fun hclaimed => by
    rw [h.searched id outcome hid hclaimed] at hcode
    cases hcode
  exact ⟨hfree, h.started.symm.trans (h.skipped id outcome hid hfree).2⟩

end SearchState.Limited

namespace Engine

variable {r : SearchRequest} {s : Session} {v : Verifier} {es : List Event} {st : SearchState} {n : Nat}

/-- Every search keeps within its limit at any time. -/
theorem limited_of_prepare (hprepare : prepare f r = .ok (p, s))
    (hlimit : f.settings.maxVisited = some n) (hrun : Run f p (.initial s v) es st) :
    st.Limited n es := by
  have hlaid := laid_of_prepare (v := v) hprepare
  induction hrun with
  | nil =>
    obtain ⟨entry, -, rfl⟩ := prepare_eq_ok hprepare
    exact ⟨rfl, Nat.zero_le n, by simp [claimsOf], nofun, nofun⟩
  | step run hmove ih =>
    have hlaid' := run.laid hlaid
    exact ih.change hlimit hlaid' (owned_of_prepare hprepare run) (tracked_of_prepare hprepare run)
      (SearchState.move_change hlaid'.fits hmove)

/-- Only visits of claimed items make moves. -/
theorem mem_claimedItems_of_visited? (hprepare : prepare f r = .ok (p, s))
    (hrun : Run f p (.initial s v) es st) {e : Event} (he : e ∈ es) {item : SearchItem}
    (hitem : e.visited? = some item) : item ∈ claimedItems es := by
  induction hrun with
  | nil => cases he
  | @step es st st' m e' run hmove ih =>
    rw [claimedItems_concat]
    rcases List.mem_append.1 he with he | he
    · exact List.mem_append_left _ (ih he)
    · obtain rfl := List.mem_singleton.1 he
      -- what is being visited was started by a claim
      have hheld {before after : List OpenVisit} {visit : OpenVisit}
          (running : st.running = before ++ visit :: after) : visit.item ∈ claimedItems es :=
        (ranked_of_prepare hprepare run).started visit (by simp [running])
      cases SearchState.move_change (run.laid (laid_of_prepare hprepare)).fits hmove with
      | claimed passes front free top within =>
        exact List.mem_append_right _ (Option.mem_toList.2 hitem)
      | followed running result =>
        obtain rfl := Option.some.inj hitem
        exact List.mem_append_left _ (hheld running)
      | examined running =>
        obtain rfl := Option.some.inj hitem
        exact List.mem_append_left _ (hheld running)
      | ended running =>
        obtain rfl := Option.some.inj hitem
        exact List.mem_append_left _ (hheld running)
      | returned | exhausted | elsewhere => cases hitem

/-- There are no more searched bundles than visits that were started. -/
theorem length_le_of_searched (hprepare : prepare f r = .ok (p, s))
    (hrun : Run f p (.initial s v) es st) {ids : List QualifiedName} (hdistinct : ids.Nodup)
    (hids : ∀ id ∈ ids, ∃ outcome, Visits.find? id st.session.visited = some outcome ∧
      outcome.isSearched = true) : ids.length ≤ (claimedItems es).length := by
  have hlaid := laid_of_prepare (v := v) hprepare
  obtain ⟨-, -, -, hvisited, -⟩ := initial_of_prepare hprepare
  have hsubset : ids ⊆ es.filterMap Event.searched? := by
    intro id hid
    obtain ⟨outcome, hfind, hsearched⟩ := hids id hid
    have houtcome : outcome = .found ∨ outcome = .notFound := by
      cases outcome <;> simp_all [VisitOutcome.isSearched]
    obtain ⟨item, version, result, found, children, admitted, hmem, rfl, -⟩ :=
      hrun.exists_ended_of_find? hlaid hvisited hfind houtcome
    exact List.mem_filterMap.2 ⟨_, hmem, rfl⟩
  calc ids.length ≤ (es.filterMap Event.searched?).length := hdistinct.length_le_of_subset hsubset
    _ ≤ es.countP Event.isEnd := by
        rw [List.length_filterMap_eq_countP]
        refine List.countP_mono_left fun e _ he => ?_
        cases e <;> simp_all [Event.searched?, Event.isEnd]
    _ ≤ (claimedItems es).length :=
        (Nat.le_add_right _ _).trans_eq (hrun.counted hlaid rfl).ended

/-- There are no more bundles found or not found, and no more results, than visits that were started. -/
theorem length_searched_le (hprepare : prepare f r = .ok (p, s)) (hrun : Run f p (.initial s v) es st) :
    st.session.visited.searched.length ≤ (claimedItems es).length ∧
      st.session.results.length ≤ (claimedItems es).length := by
  have hdistinct := (accounted_of_prepare hprepare hrun).distinct
  have hreported := reported_of_prepare hprepare hrun
  constructor
  · refine length_le_of_searched hprepare hrun (hdistinct.sublist (List.filter_sublist.map Prod.fst)) ?_
    intro id hid
    obtain ⟨⟨id, outcome⟩, hmem, rfl⟩ := List.mem_map.1 hid
    obtain ⟨hvisited, hsearched⟩ := List.mem_filter.1 hmem
    exact ⟨outcome, (Visits.find?_eq_some_iff hdistinct).2 hvisited, hsearched⟩
  · rw [← List.length_map FoundResult.bundleId]
    refine length_le_of_searched hprepare hrun hreported.distinct fun id hid => ?_
    obtain ⟨result, hresult, rfl⟩ := List.mem_map.1 hid
    refine ⟨result.outcome, hreported.outcome result hresult, ?_⟩
    rw [FoundResult.outcome]
    split <;> rfl

/-- A report has no more results than its session. -/
theorem length_results_reportOf_le (settings : SearchSettings) (late : Bool) (s : Session) :
    (reportOf settings late s).results.length ≤ s.results.length := by
  rw [reportOf]
  cases settings.maxResults with
  | none => exact Nat.le_refl _
  | some m => exact List.length_take_le' m s.results

/-- A move skips a bundle for the limit only when all visits that are allowed were started, and the bundle
is free. -/
theorem reached_of_skipped (hprepare : prepare f r = .ok (p, s))
    (hlimit : f.settings.maxVisited = some n) (hrun : Run f p (.initial s v) es st) {m : Move} {e : Event}
    {st' : SearchState} (hmove : st.move f p m = some (e, st')) {id : QualifiedName}
    {outcome : VisitOutcome} (hcode : outcome.isSkippedWith "MAX_VISITED" = true)
    (hbefore : Visits.find? id st.session.visited ≠ some outcome)
    (hid : Visits.find? id st'.session.visited = some outcome) :
    (claimedItems es).length = n ∧ st.session.isClaimed id = false := by
  have hlaid := hrun.laid (laid_of_prepare hprepare)
  have hlimited := limited_of_prepare hprepare hlimit hrun
  rcases (SearchState.move_change hlaid.fits hmove).earlier_or_limit_or_ended hid with
    hearlier | ⟨hfree, k, hreached, -⟩ | ⟨item, version, result, admitted, -, hmem, hending⟩
  · exact absurd hearlier hbefore
  · obtain ⟨-, hstarted⟩ := hlimited.eq_of_reached (hlimit ▸ hreached)
    exact ⟨hlimited.started.symm.trans hstarted, hfree⟩
  · rw [(hlaid.founded _ hmem).isSkippedWith_endings hending] at hcode
    cases hcode

/-- A bundle that is never claimed is visited by nobody. -/
theorem bundleId_ne_of_visited? (hprepare : prepare f r = .ok (p, s))
    (hrun : Run f p (.initial s v) es st) {id : QualifiedName}
    (hfree : id ∉ (claimsOf es).map Prod.fst) {e : Event} (he : e ∈ es) {item : SearchItem}
    (hitem : e.visited? = some item) : item.bundleId ≠ id := by
  rintro rfl
  have hclaimed := mem_claimedItems_of_visited? hprepare hrun he hitem
  exact hfree ((map_claimedItems_sublist es).subset (List.mem_map_of_mem hclaimed))

/-- When nothing waits and no visit is under way, what came up without ever being claimed was skipped for the
limit. -/
theorem skipped_of_drained (hprepare : prepare f r = .ok (p, s))
    (hlimit : f.settings.maxVisited = some n) (hrun : Run f p (.initial s v) es st)
    (hwaiting : st.session.frontier.items = []) (hdone : st.running = []) {y : SearchItem}
    (hy : y ∈ createdItems s es) (hfree : y.bundleId ∉ (claimsOf es).map Prod.fst) :
    Visits.find? y.bundleId st.session.visited = some (.ofLimit n) := by
  have hclaimed : st.session.isClaimed y.bundleId = true := by
    refine ((tracked_of_prepare hprepare hrun).waiting y hy).resolve_left fun hwaits => ?_
    rw [hwaiting] at hwaits
    cases hwaits
  have hhas := (owned_of_prepare hprepare hrun).has_of_isClaimed hdone hclaimed
  obtain ⟨outcome, hfind⟩ := Option.isSome_iff_exists.1 hhas
  rw [hfind, ((limited_of_prepare hprepare hlimit hrun).skipped _ outcome hfind hfree).1]

/-- **The limit of visits is exact.** With a limit of `n`, no run of a search starts more than `n` visits, so
no more bundles are found or not found and there are no more results, also in a report. A bundle is skipped
for the limit only when exactly `n` visits were started and nobody holds it or has answered it; it was never
claimed then, and no visit of it makes a move or fetches anything. An item that waits in some state and whose
bundle is never claimed ends with that outcome, once nothing waits and no visit is under way. So ends every
loop that has no visit left to wait for, such as that of `Engine.search` without a deadline and a limit of
results. -/
theorem visit_limit_exact (hprepare : prepare f r = .ok (p, s))
    (hlimit : f.settings.maxVisited = some n) (hrun : Run f p (.initial s v) es st) :
    ((claimedItems es).length ≤ n ∧ st.session.visited.searched.length ≤ n ∧
      st.session.results.length ≤ n) ∧
    (∀ (e e' : Engine) (report : SearchReport), e.federation = f → e.search r = (.ok report, e') →
      report.visited.searched.length ≤ n ∧ report.results.length ≤ n) ∧
    (∀ m e st', st.move f p m = some (e, st') → ∀ id outcome,
      outcome.isSkippedWith "MAX_VISITED" = true →
      Visits.find? id st.session.visited ≠ some outcome →
      Visits.find? id st'.session.visited = some outcome →
        (claimedItems es).length = n ∧ st.session.isClaimed id = false) ∧
    (∀ id outcome, outcome.isSkippedWith "MAX_VISITED" = true →
      Visits.find? id st.session.visited = some outcome →
        (claimedItems es).length = n ∧ id ∉ (claimsOf es).map Prod.fst ∧
          ∀ e ∈ es, (∀ item, e.visited? = some item → item.bundleId ≠ id) ∧
            (e.fetches f p ≠ [] → e.visited?.isSome)) ∧
    (∀ es' st', Run f p st es' st' → st'.session.frontier.items = [] → st'.running = [] →
      ∀ y ∈ st.session.frontier.items, y.bundleId ∉ (claimsOf (es ++ es')).map Prod.fst →
        Visits.find? y.bundleId st'.session.visited = some (.ofLimit n)) ∧
    (∀ k es₀ st₀ es₁ st₁, Loop f p (.initial s v) k es₀ st₀ → Fills f st₀ es₁ st₁ → st₁.running = [] →
      st₁.session.frontier.items = []) ∧
    (f.settings.deadline = none → f.settings.maxResults = none →
      ∀ e : Engine, e.federation = f → e.verifier = v → ∃ report e', e.search r = (.ok report, e') ∧
        ∃ k es₀ st₀ es₁ st₁, Loop f p (.initial s v) k es₀ st₀ ∧ Fills f st₀ es₁ st₁ ∧
          st₁.running = [] ∧ report.visited = st₁.session.visited) := by
  have hlaid := laid_of_prepare (v := v) hprepare
  have hlimited := limited_of_prepare hprepare hlimit hrun
  have hwithin : (claimedItems es).length ≤ n := hlimited.started ▸ hlimited.within
  obtain ⟨hsearched, hresults⟩ := length_searched_le hprepare hrun
  refine ⟨⟨hwithin, hsearched.trans hwithin, hresults.trans hwithin⟩, ?_, ?_, ?_, ?_, ?_, ?_⟩
  · -- a search of an engine is a run of its own, within the same limit
    rintro e e' report rfl hsearch
    obtain ⟨p', s', es', st', hprepare', hrun', late, rfl⟩ := search_run hsearch
    have hlimited' := limited_of_prepare hprepare' hlimit hrun'
    have hwithin' : (claimedItems es').length ≤ n := hlimited'.started ▸ hlimited'.within
    obtain ⟨hsearched', hresults'⟩ := length_searched_le hprepare' hrun'
    exact ⟨hsearched'.trans hwithin',
      (length_results_reportOf_le _ late st'.session).trans (hresults'.trans hwithin')⟩
  · intro m e st' hmove id outcome hcode hbefore hid
    exact reached_of_skipped hprepare hlimit hrun hmove hcode hbefore hid
  · intro id outcome hcode hid
    obtain ⟨hfree, hreached⟩ := hlimited.of_isSkippedWith hid hcode
    refine ⟨hreached, hfree, fun e he => ⟨fun item => bundleId_ne_of_visited? hprepare hrun hfree he, ?_⟩⟩
    cases e <;> simp [Event.fetches, Event.visited?]
  · -- an item that waits was created, and what was created and never claimed is skipped in the end
    intro es' st' hlater hwaiting hdone y hy hfree
    have hcreated : y ∈ createdItems s es := (hrun.items_subset_createdItems hlaid rfl).1 (by
      rw [SearchState.items]
      exact List.mem_append_left _ hy)
    refine skipped_of_drained hprepare hlimit (hrun.append hlater) hwaiting hdone ?_ hfree
    rw [createdItems, discoveredItems, List.flatMap_append, ← List.append_assoc]
    exact List.mem_append_left _ hcreated
  · intro k es₀ st₀ es₁ st₁ hloop hfills hdone
    exact (hfills.drained (hloop.run.laid hlaid) (owned_of_prepare hprepare hloop.run) hdone).1
  · rintro hdeadline hresults e rfl rfl
    obtain ⟨report, e', hreport, k, es₀, st₀, es₁, st₁, hloop, hfills, hdone, hvisited, -⟩ :=
      exists_loop_search hprepare hdeadline hresults
    exact ⟨report, e', hreport, k, es₀, st₀, es₁, st₁, hloop, hfills, hdone, hvisited⟩

end Engine

namespace Sample

/-- The small federation, with a single visit allowed. -/
def limited : Federation :=
  { federation with settings := { federation.settings with maxVisited := some 1 } }

theorem prepare_limited : Engine.prepare limited request = .ok (plan, session) := by
  with_unfolding_all rfl

end Sample

/-- The visit of `A` is the only one, and finds `B` and `C`. The next claim skips both, which nobody has
claimed. -/
theorem Engine.sample_visit_limit_exact :
    ∃ es st, Run Sample.limited Sample.plan (.initial Sample.session Sample.verifier) es st ∧
      (claimedItems es).length = 1 ∧ st.session.results.length ≤ 1 ∧
      ∀ id ∈ ["B", "C"].map Sample.document, id ∉ (claimsOf es).map Prod.fst ∧
        Visits.find? id st.session.visited = some (.ofLimit 1) := by
  have hplay : (SearchState.play Sample.limited Sample.plan
      (.initial Sample.session Sample.verifier) ([.claim] ++ Sample.visit 0)).any (fun r =>
        r.2.session.frontier.items.map SearchItem.bundleId == ["B", "C"].map Sample.document &&
          (SearchState.play Sample.limited Sample.plan r.2 [.claim]).any fun r' =>
            r'.2.session.frontier.items.isEmpty && r'.2.running.isEmpty &&
              (claimsOf (r.1 ++ r'.1)).map Prod.fst == [Sample.document "A"]) = true := by
    decide +kernel
  obtain ⟨⟨es, st⟩, hst, hplayed⟩ := (Option.any_eq_true _ _).1 hplay
  obtain ⟨hitems, hthen⟩ := Bool.and_eq_true_iff.1 hplayed
  obtain ⟨⟨es', st'⟩, hst', hdrained⟩ := (Option.any_eq_true _ _).1 hthen
  obtain ⟨hdone, hclaims⟩ := Bool.and_eq_true_iff.1 hdrained
  obtain ⟨hwaiting, hrunning⟩ := Bool.and_eq_true_iff.1 hdone
  have hrun := Run.of_play hst
  have hlater := Run.of_play hst'
  obtain ⟨-, -, -, -, hskips, -⟩ := visit_limit_exact Sample.prepare_limited rfl hrun
  obtain ⟨⟨-, -, hresults⟩, -, -, hreached, -⟩ :=
    visit_limit_exact Sample.prepare_limited rfl (hrun.append hlater)
  have hfree (id : QualifiedName) (hid : id ∈ ["B", "C"].map Sample.document) :
      id ∉ (claimsOf (es ++ es')).map Prod.fst := by
    rw [eq_of_beq hclaims]
    revert id
    decide
  have hskipped (id : QualifiedName) (hid : id ∈ ["B", "C"].map Sample.document) :
      Visits.find? id st'.session.visited = some (.ofLimit 1) := by
    have hwaits := hid
    rw [← eq_of_beq hitems] at hwaits
    obtain ⟨y, hy, rfl⟩ := List.mem_map.1 hwaits
    exact hskips es' st' hlater (List.isEmpty_iff.1 hwaiting) (List.isEmpty_iff.1 hrunning) y hy
      (hfree _ hid)
  refine ⟨es ++ es', st', hrun.append hlater, ?_, hresults, fun id hid => ⟨hfree id hid, hskipped id hid⟩⟩
  exact (hreached (Sample.document "B") (.ofLimit 1) rfl (hskipped _ (by simp))).1

end ProvenanceTrail
