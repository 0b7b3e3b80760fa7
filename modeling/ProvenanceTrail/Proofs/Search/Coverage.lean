import ProvenanceTrail.Proofs.Search.Paths

/-!
# What a finished search has covered

When nothing waits and no visit is under way, the outcomes of a search are closed and grounded. They are
closed because nothing that is discovered gets lost: an item waits until its bundle is claimed
(`Tracked.waiting`), and a claimed bundle that no visit holds has an outcome. They are grounded
because a bundle gets an outcome only if an item for it came up, or if the reference of a claimed item
led to it.
-/

namespace ProvenanceTrail

variable {f : Federation} {p : SearchPlan}

/-- The outcome that an expansion calls for. -/
def Expansion.outcome (x : Expansion f p) : VisitOutcome := if x.answer.isEmpty then .notFound else .found

/-- A bundle is the first one of a search, or a connector that was followed names it. -/
def Referenced (f : Federation) (p : SearchPlan) (start : SearchState) (es : List Event)
    (st : SearchState) (first id : QualifiedName) : Prop :=
  id = first ∨ ∃ x : Expansion f p, x.Performed start es st ∧ x.followed = true ∧ x.Names id

/-- The outcomes of a search are closed and grounded. -/
structure Covers (f : Federation) (p : SearchPlan) (start : SearchState) (es : List Event)
    (st : SearchState) (first : QualifiedName) : Prop where
  initial : Visits.has first st.session.visited = true
  /-- every bundle that was found or not found was expanded -/
  expanded : ∀ id outcome, Visits.find? id st.session.visited = some outcome →
    outcome = .found ∨ outcome = .notFound →
      ∃ x : Expansion f p, x.Performed start es st ∧ x.bundleId = id ∧ x.outcome = outcome
  /-- the connectors of an expanded bundle lead to bundles with outcomes, unless they were left alone -/
  closed : ∀ x : Expansion f p, x.Performed start es st → x.followed = true →
    ∃ connectors, discoverConnectors x.view (some p.direction) = .ok connectors ∧
      ∀ c ∈ connectors, ∀ id, c.referencedBundleId = some id → Visits.has id st.session.visited = true
  /-- every bundle with an outcome is referenced or the version that such a reference led to -/
  grounded : ∀ id, Visits.has id st.session.visited = true →
    Referenced f p start es st first id ∨
      ∃ item ∈ claimedItems es, Referenced f p start es st first item.bundleId ∧
        ∃ l, (f.locate p.preference item).value = .ok l ∧ l.bundleId = id

/-! ## Where outcomes come from -/

namespace Run

variable {start st : SearchState} {es : List Event}

/-- A bundle that was found or not found was searched by a visit that ended. -/
theorem exists_ended_of_find? (hlaid : start.Laid f p) (hvisited : start.session.visited = [])
    (h : Run f p start es st) {id : QualifiedName} {outcome : VisitOutcome}
    (hid : Visits.find? id st.session.visited = some outcome)
    (hsearched : outcome = .found ∨ outcome = .notFound) :
    ∃ item version result found children admitted,
      Event.ended item version (.ok (.searched result found children)) admitted ∈ es ∧
        version.getD item.bundleId = id ∧ (if found then .found else .notFound) = outcome := by
  refine h.induct (motive := fun es st => Visits.find? id st.session.visited = some outcome →
    ∃ item version result found children admitted,
      Event.ended item version (.ok (.searched result found children)) admitted ∈ es ∧
        version.getD item.bundleId = id ∧ (if found then VisitOutcome.found else .notFound) = outcome)
    hlaid ?_ ?_ hid
  · rw [hvisited]
    intro hnone
    cases hnone
  · intro es st e st' _ ih hchange hid
    -- of the ways to an outcome, only a search of the bundle leaves one of these two
    cases hchange.outcomeOrigin hid with
    | earlier found =>
      obtain ⟨item, version, result, found, children, admitted, hmem, hrest⟩ := ih found
      exact ⟨item, version, result, found, children, admitted, List.mem_append_left _ hmem, hrest⟩
    | skipped mem bundle eq => simp [eq] at hsearched
    | @ended item version result admitted event mem ending =>
      rcases result with err | (target | ⟨result, found, children⟩)
      · obtain ⟨_, -, heq⟩ := List.mem_map.1 ending
        obtain ⟨-, rfl⟩ := Prod.mk.inj heq
        simp at hsearched
      · obtain ⟨-, rfl⟩ := Prod.mk.inj (List.mem_singleton.1 ending)
        simp at hsearched
      · refine ⟨item, version, result, found, children, admitted, by simp [event], ?_⟩
        rcases List.mem_append.1 ending with hredirect | hsearch
        · obtain ⟨_, -, heq⟩ := List.mem_map.1 hredirect
          obtain ⟨-, rfl⟩ := Prod.mk.inj heq
          simp at hsearched
        · obtain ⟨rfl, rfl⟩ := Prod.mk.inj (List.mem_singleton.1 hsearch)
          exact ⟨rfl, rfl⟩

/-- A bundle that was found or not found was expanded. -/
theorem exists_expansion_of_find? (hlaid : start.Laid f p) (hstart : start.running = [])
    (hvisited : start.session.visited = []) (h : Run f p start es st) {id : QualifiedName}
    {outcome : VisitOutcome} (hid : Visits.find? id st.session.visited = some outcome)
    (hsearched : outcome = .found ∨ outcome = .notFound) :
    ∃ x : Expansion f p, x.Performed start es st ∧ x.bundleId = id ∧ x.outcome = outcome := by
  obtain ⟨item, version, result, found, children, admitted, hmem, rfl, rfl⟩ :=
    h.exists_ended_of_find? hlaid hvisited hid hsearched
  obtain ⟨x, hperformed, rfl, rfl, hvisit⟩ := h.exists_expansion_of_ended hlaid hstart hmem
  refine ⟨x, hperformed, x.getD_version?.symm, ?_⟩
  rw [← (Visit.searched.inj hvisit).2.1, Expansion.outcome]
  cases x.answer.isEmpty <;> rfl

end Run

/-- What an expansion discovers comes up in the search. -/
theorem Expansion.Performed.mem_createdItems {start st : SearchState} {es : List Event}
    {x : Expansion f p} (h : x.Performed start es st) {y : SearchItem} (hy : y ∈ x.children) :
    y ∈ createdItems start.session es := by
  obtain ⟨-, admitted, hended⟩ := h
  exact List.mem_append_right _ (List.mem_flatMap.2 ⟨_, hended, hy⟩)

namespace Engine

variable {r : SearchRequest} {s : Session} {v : Verifier} {es : List Event} {st : SearchState}

/-- An item that came up is for a referenced bundle. -/
theorem referenced_of_mem_createdItems (hprepare : prepare f r = .ok (p, s))
    (hrun : Run f p (.initial s v) es st) {y : SearchItem} (hy : y ∈ createdItems s es) :
    Referenced f p (.initial s v) es st r.bundleId y.bundleId := by
  obtain ⟨entry, -, hfirst, -⟩ := initial_of_prepare hprepare
  obtain ⟨path, hpath, ⟨-, rfl⟩ | ⟨x, hlast, hchild⟩⟩ :=
    hrun.exists_path (laid_of_prepare hprepare) rfl hfirst y hy
  · exact .inl rfl
  · obtain ⟨hfollowed, hnames, -⟩ := x.child_spec hchild
    exact .inr ⟨x, hpath.performed x (List.mem_of_getLast? hlast), hfollowed, hnames⟩

/-- A bundle has an outcome only if an item for it came up, or if the reference of a claimed item led to
it. -/
theorem created_or_located_of_has (hprepare : prepare f r = .ok (p, s))
    (hrun : Run f p (.initial s v) es st) {id : QualifiedName}
    (hid : Visits.has id st.session.visited = true) :
    (∃ y ∈ createdItems s es, y.bundleId = id) ∨
      ∃ item ∈ claimedItems es, ∃ l, (f.locate p.preference item).value = .ok l ∧ l.bundleId = id := by
  have hlaid := laid_of_prepare (v := v) hprepare
  induction hrun with
  | nil =>
    obtain ⟨entry, -, -, hvisited, -⟩ := initial_of_prepare hprepare
    rw [show (SearchState.initial s v).session.visited = [] from hvisited] at hid
    cases hid
  | @step es st st' m e run hmove ih =>
    have hlaid' := run.laid hlaid
    have hitems := (run.items_subset_createdItems hlaid rfl).1
    obtain ⟨outcome, hfind⟩ := Option.isSome_iff_exists.1 hid
    have hcreated {y : SearchItem} (hy : y ∈ st.items) : y ∈ createdItems s (es ++ [e]) :=
      mem_createdItems_concat.2 (.inl (hitems hy))
    have hclaimed {y : SearchItem} (hy : y ∈ claimedItems es) : y ∈ claimedItems (es ++ [e]) := by
      rw [claimedItems_concat]
      exact List.mem_append_left _ hy
    cases (SearchState.move_change hlaid'.fits hmove).outcomeOrigin hfind with
    | earlier found =>
      rcases ih (Option.isSome_iff_exists.2 ⟨outcome, found⟩) with ⟨y, hy, hbundle⟩ | ⟨y, hy, hleads⟩
      · exact .inl ⟨y, mem_createdItems_concat.2 (.inl hy), hbundle⟩
      · exact .inr ⟨y, hclaimed hy, hleads⟩
    | skipped mem bundle eq => exact .inl ⟨_, hcreated (List.mem_append_left _ mem), bundle⟩
    | @ended item version result admitted event mem ending =>
      -- the visit held the bundle, as the referenced one or as the version
      have hheld := Visit.map_fst_endings_subset item.bundleId version result
        (List.mem_map_of_mem (f := Prod.fst) ending)
      rcases List.mem_cons.1 hheld with rfl | hversion
      · exact .inl ⟨item, hcreated (List.mem_append_right _ (List.mem_map.2 ⟨_, mem, rfl⟩)), rfl⟩
      · obtain rfl := Option.mem_toList.1 hversion
        obtain ⟨-, l, hleads, hl⟩ := (hlaid'.founded _ mem).of_version
        exact .inr ⟨item, hclaimed ((ranked_of_prepare hprepare run).started _ mem), l, hleads, hl⟩

/-- When nothing waits and no visit is under way, the outcomes of a search are closed and grounded. -/
theorem covers_of_drained (hprepare : prepare f r = .ok (p, s)) (hrun : Run f p (.initial s v) es st)
    (hwaiting : st.session.frontier.items = []) (hdone : st.running = []) :
    Covers f p (.initial s v) es st r.bundleId := by
  have hlaid := laid_of_prepare (v := v) hprepare
  have htracked := tracked_of_prepare hprepare hrun
  have howned := owned_of_prepare hprepare hrun
  obtain ⟨entry, -, hfirst, hvisited, -⟩ := initial_of_prepare hprepare
  -- nothing waits, so whatever came up was claimed, and nothing is held any more
  have hhas {y : SearchItem} (hy : y ∈ createdItems s es) :
      Visits.has y.bundleId st.session.visited = true := by
    refine howned.has_of_isClaimed hdone ((htracked.waiting y hy).resolve_left fun hwaits => ?_)
    rw [hwaiting] at hwaits
    cases hwaits
  refine ⟨?_, ?_, ?_, ?_⟩
  · have hseed : SearchItem.seed r.bundleId entry p.layout ∈ createdItems s es :=
      List.mem_append_left _ (by rw [hfirst]; exact List.mem_singleton_self _)
    exact hhas hseed
  · exact fun id outcome hid => hrun.exists_expansion_of_find? hlaid rfl hvisited hid
  · intro x hperformed hfollowed
    obtain ⟨connectors, hconnectors, -⟩ := x.exists_connectors hfollowed
    refine ⟨connectors, hconnectors, fun c hc id hid => ?_⟩
    obtain ⟨child, hchild, rfl⟩ := x.exists_child hfollowed ⟨connectors, c, hconnectors, hc, hid⟩
    exact hhas (hperformed.mem_createdItems hchild)
  · intro id hid
    rcases created_or_located_of_has hprepare hrun hid with ⟨y, hy, rfl⟩ | ⟨item, hitem, hleads⟩
    · exact .inl (referenced_of_mem_createdItems hprepare hrun hy)
    · refine .inr ⟨item, hitem, ?_, hleads⟩
      exact referenced_of_mem_createdItems hprepare hrun
        ((hrun.items_subset_createdItems hlaid rfl).2 hitem)

end Engine

end ProvenanceTrail
