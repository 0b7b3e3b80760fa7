import ProvenanceTrail.Proofs.Search.Branch
import ProvenanceTrail.Proofs.Search.Interleaving

/-!
# Visits under way

Two facts hold in every state that a search can reach, whatever the order of its moves. The stage of each
visit is `Founded`: it says what the services do say about the visit's item. And the checks are `Laid`
out in one way: all items carry outcomes for the checks of the plan, so that the frontier takes in every
item and any two items can be compared. `Run.induct` is the induction over runs that comes with both.
-/

namespace ProvenanceTrail

variable {f : Federation} {p : SearchPlan}

/-- The stage of a visit is what the services make of its item. -/
inductive OpenVisit.Founded (f : Federation) (p : SearchPlan) : OpenVisit → Prop where
  | start (item : SearchItem) : Founded f p (.start item)
  | located {item : SearchItem} {l : Located} (leads : (f.locate p.preference item).value = .ok l) :
      Founded f p ⟨item, l.version? item, .located l⟩
  | lost {item : SearchItem} {e : BranchError}
      (fails : (f.locate p.preference item).value = .error e) :
      Founded f p ⟨item, none, .settled (.error e)⟩
  | redirected {item : SearchItem} {l : Located}
      (leads : (f.locate p.preference item).value = .ok l) (other : l.bundleId ≠ item.bundleId) :
      Founded f p ⟨item, none, .settled (.ok (.redirected l.bundleId))⟩
  | examined {item : SearchItem} {l : Located}
      (leads : (f.locate p.preference item).value = .ok l) (v : Verifier) :
      Founded f p ⟨item, l.version? item, .settled (f.search p item l v).value.1⟩

/-- A visit that has been located is where its reference leads to. -/
theorem OpenVisit.Founded.of_located {item : SearchItem} {version : Option QualifiedName} {l : Located}
    (h : Founded f p ⟨item, version, .located l⟩) :
    version = l.version? item ∧ (f.locate p.preference item).value = .ok l := by
  generalize hv : OpenVisit.mk item version (.located l) = visit at h
  cases h with
  | start item => simp [OpenVisit.start] at hv
  | @located item' l' leads =>
    obtain ⟨rfl, rfl, hstage⟩ := OpenVisit.mk.inj hv
    obtain rfl := Stage.located.inj hstage
    exact ⟨rfl, leads⟩
  | lost fails => simp at hv
  | redirected leads other => simp at hv
  | examined leads v => simp at hv

/-- A visit that ends with a search has searched the version that its reference leads to. -/
theorem OpenVisit.Founded.searched {item : SearchItem} {version : Option QualifiedName}
    {result : Option FoundResult} {found : Bool} {children : List SearchItem}
    (h : Founded f p ⟨item, version, .settled (.ok (.searched result found children))⟩) :
    ∃ l v, version = l.version? item ∧
      f.SearchedBy p item l v (.searched result found children) := by
  generalize hv : OpenVisit.mk item version (.settled (.ok (.searched result found children))) = visit
    at h
  cases h with
  | start item => simp [OpenVisit.start] at hv
  | located leads => simp at hv
  | lost fails => simp at hv
  | redirected leads other => simp at hv
  | @examined item' l leads v =>
    obtain ⟨rfl, rfl, hsettled⟩ := OpenVisit.mk.inj hv
    exact ⟨l, v, rfl, Federation.search_ok (Stage.settled.inj hsettled).symm⟩

/-- A visit that has not followed its reference is as it was started. -/
theorem OpenVisit.Founded.eq_start {v : OpenVisit} (h : v.Founded f p) (hstage : v.stage = .claimed) :
    v = .start v.item := by
  cases h with
  | start item => rfl
  | located leads => cases hstage
  | lost fails => cases hstage
  | redirected leads other => cases hstage
  | examined leads v => cases hstage

/-- A visit that is redirected holds its referenced bundle only, and its reference leads to the bundle that
it is redirected to. -/
theorem OpenVisit.Founded.of_redirected {v : OpenVisit} {b : QualifiedName} (h : v.Founded f p)
    (hstage : v.stage = .settled (.ok (.redirected b))) :
    v = ⟨v.item, none, .settled (.ok (.redirected b))⟩ ∧ b ≠ v.item.bundleId ∧
      ∃ l, (f.locate p.preference v.item).value = .ok l ∧ l.bundleId = b := by
  cases h with
  | start item => cases hstage
  | located leads => cases hstage
  | lost fails => simp at hstage
  | @redirected item l leads other =>
    obtain rfl : l.bundleId = b := by simpa using hstage
    exact ⟨rfl, other, l, leads, rfl⟩
  | @examined item l leads v =>
    exact absurd (by simpa using hstage) (Federation.search_ne_redirected item l v b)

/-- A visit that holds another version than the referenced one holds the one that its reference leads to. -/
theorem OpenVisit.Founded.of_version {item : SearchItem} {w : QualifiedName} {stage : Stage}
    (h : Founded f p ⟨item, some w, stage⟩) :
    w ≠ item.bundleId ∧ ∃ l, (f.locate p.preference item).value = .ok l ∧ l.bundleId = w := by
  generalize hv : OpenVisit.mk item (some w) stage = visit at h
  have hversion {l : Located} (heq : some w = l.version? item) :
      w ≠ item.bundleId ∧ l.bundleId = w := by
    unfold Located.version? at heq
    split at heq
    · cases heq
    · rename_i hother
      obtain rfl := Option.some.inj heq
      exact ⟨hother, rfl⟩
  cases h with
  | start item => simp [OpenVisit.start] at hv
  | @located item' l leads =>
    obtain ⟨rfl, heq, -⟩ := OpenVisit.mk.inj hv
    exact ⟨(hversion heq).1, l, leads, (hversion heq).2⟩
  | lost fails => simp at hv
  | redirected leads other => simp at hv
  | @examined item' l leads v =>
    obtain ⟨rfl, heq, -⟩ := OpenVisit.mk.inj hv
    exact ⟨(hversion heq).1, l, leads, (hversion heq).2⟩

/-- The end of a visit records an outcome of every bundle that the visit holds. -/
theorem OpenVisit.Founded.ids_subset_endings {item : SearchItem} {version : Option QualifiedName}
    {outcome : Except BranchError Visit} (h : Founded f p ⟨item, version, .settled outcome⟩) :
    item.bundleId :: version.toList ⊆
      (Visit.endings item.bundleId version outcome).map Prod.fst := by
  rcases outcome with e | (target | ⟨result, found, children⟩)
  · cases version <;> simp [Visit.endings]
  · -- a visit that was redirected holds no other version
    obtain ⟨-, rfl, -⟩ := OpenVisit.mk.inj (h.of_redirected rfl).1
    simp [Visit.endings]
  · cases version <;> simp [Visit.endings]

/-- A visit that ends with an answer has it from the bundle that it holds. -/
theorem OpenVisit.Founded.result_spec {item : SearchItem} {version : Option QualifiedName}
    {r : FoundResult} {found : Bool} {children : List SearchItem}
    (h : Founded f p ⟨item, version, .settled (.ok (.searched (some r) found children))⟩) :
    r.bundleId = version.getD item.bundleId ∧ found = !r.result.isEmpty ∧
      r.pathIntegrity = (item.pathIntegrity && r.integrity) ∧
      r.pathValidityChecks = CheckOutcome.combine item.pathValidity r.validityChecks := by
  obtain ⟨l, v, rfl, hsearched⟩ := h.searched
  rw [l.getD_version? item]
  exact hsearched.result_spec

/-- The items that a visit discovers carry its own item's checks and are at most as credible. -/
theorem OpenVisit.Founded.child_spec {item : SearchItem} {version : Option QualifiedName}
    {outcome : Except BranchError Visit} (h : Founded f p ⟨item, version, .settled outcome⟩)
    {child : SearchItem} (hchild : child ∈ Visit.children outcome) :
    child.layout = item.layout ∧ item.AtLeast child := by
  rcases outcome with e | (target | ⟨result, found, children⟩)
  · simp [Visit.children] at hchild
  · simp [Visit.children] at hchild
  · obtain ⟨l, v, -, hsearched⟩ := h.searched
    exact ⟨hsearched.child_layout hchild, hsearched.atLeast_child hchild⟩

/-! ## Following a reference -/

/-- What can come of following a reference. It leads nowhere, to the referenced bundle itself, to another
version, which the visit then claims, or to another version that is claimed already. -/
inductive Follows (f : Federation) (p : SearchPlan) (s : Session) (item : SearchItem) :
    OpenVisit → Session → Prop where
  | lost {e : BranchError} (fails : (f.locate p.preference item).value = .error e) :
      Follows f p s item ⟨item, none, .settled (.error e)⟩ s
  | same {l : Located} (leads : (f.locate p.preference item).value = .ok l)
      (same : l.bundleId = item.bundleId) : Follows f p s item ⟨item, none, .located l⟩ s
  | version {l : Located} (leads : (f.locate p.preference item).value = .ok l)
      (other : l.bundleId ≠ item.bundleId) (free : s.isClaimed l.bundleId = false) :
      Follows f p s item ⟨item, some l.bundleId, .located l⟩ (s.claim l.bundleId item)
  | redirected {l : Located} (leads : (f.locate p.preference item).value = .ok l)
      (other : l.bundleId ≠ item.bundleId) (claimed : s.isClaimed l.bundleId = true) :
      Follows f p s item ⟨item, none, .settled (.ok (.redirected l.bundleId))⟩ s

/-- Following a reference ends in one of these ways. -/
theorem followReference_follows {s s' : Session} {item : SearchItem} {v : OpenVisit}
    (h : f.followReference p s item = (v, s')) : Follows f p s item v s' := by
  unfold Federation.followReference at h
  split at h
  · rename_i e hlocate
    obtain ⟨rfl, rfl⟩ := Prod.mk.inj h
    exact .lost hlocate
  · rename_i l hlocate
    split at h
    · rename_i hsame
      obtain ⟨rfl, rfl⟩ := Prod.mk.inj h
      exact .same hlocate hsame
    · rename_i hother
      unfold Session.claimVersion? at h
      cases hclaimed : s.isClaimed l.bundleId with
      | true =>
        obtain ⟨rfl, rfl⟩ := Prod.mk.inj (by simpa [hclaimed] using h)
        exact .redirected hlocate hother hclaimed
      | false =>
        obtain ⟨rfl, rfl⟩ := Prod.mk.inj (by simpa [hclaimed] using h)
        exact .version hlocate hother hclaimed

/-- A visit that follows its reference claims another version, which nobody had claimed, or nothing. -/
theorem followReference_claims {s s' : Session} {item : SearchItem} {v : OpenVisit}
    (h : f.followReference p s item = (v, s')) :
    v.version = none ∧ s' = s ∨
      ∃ id, v.version = some id ∧ id ≠ item.bundleId ∧ s.isClaimed id = false ∧
        s' = s.claim id item := by
  cases followReference_follows h with
  | lost | same | redirected => exact .inl ⟨rfl, rfl⟩
  | version leads other free => exact .inr ⟨_, rfl, other, free, rfl⟩

/-- The visit that follows a reference is founded on it. -/
theorem followReference_founded {s s' : Session} {item : SearchItem} {v : OpenVisit}
    (h : f.followReference p s item = (v, s')) : v.item = item ∧ v.Founded f p := by
  cases followReference_follows h with
  | lost fails => exact ⟨rfl, .lost fails⟩
  | @same l leads same =>
    have hlocated : OpenVisit.Founded f p ⟨item, l.version? item, .located l⟩ := .located leads
    rw [Located.version?, if_pos same] at hlocated
    exact ⟨rfl, hlocated⟩
  | @version l leads other free =>
    have hlocated : OpenVisit.Founded f p ⟨item, l.version? item, .located l⟩ := .located leads
    rw [Located.version?, if_neg other] at hlocated
    exact ⟨rfl, hlocated⟩
  | redirected leads other claimed => exact ⟨rfl, .redirected leads other⟩

/-- Following a reference leaves the frontier, the outcomes and the results alone. -/
theorem followReference_frame {s s' : Session} {item : SearchItem} {v : OpenVisit}
    (h : f.followReference p s item = (v, s')) :
    s'.frontier = s.frontier ∧ s'.visited = s.visited ∧ s'.results = s.results := by
  rcases followReference_claims h with ⟨-, rfl⟩ | ⟨id, -, -, -, rfl⟩
  · exact ⟨rfl, rfl, rfl⟩
  · exact ⟨rfl, rfl, rfl⟩

/-! ## One layout for all items -/

/-- The checks that the items of a search carry outcomes for. -/
def SearchPlan.layout (p : SearchPlan) : List String := p.checks.map ValidityCheck.id

/-- Every item carries outcomes for the checks of the plan, and every visit is at a founded stage. -/
structure SearchState.Laid (f : Federation) (p : SearchPlan) (st : SearchState) : Prop where
  checks : st.session.frontier.checks = p.layout
  waiting : ∀ item ∈ st.session.frontier.items, item.layout = p.layout
  running : ∀ v ∈ st.running, v.item.layout = p.layout
  founded : ∀ v ∈ st.running, v.Founded f p

namespace SearchState

variable {st st' : SearchState} {e : Event}

/-- A state that is laid out fits its plan. -/
theorem Laid.fits (h : st.Laid f p) : st.Fits := by
  intro item hitem
  rw [h.waiting item hitem, h.checks]

/-- All items of a state, waiting or being visited, carry outcomes for the checks of the plan. -/
theorem Laid.layout (h : st.Laid f p) {x : SearchItem} (hx : x ∈ st.items) : x.layout = p.layout := by
  rcases List.mem_append.1 hx with hx | hx
  · exact h.waiting x hx
  · obtain ⟨v, hv, rfl⟩ := List.mem_map.1 hx
    exact h.running v hv

/-- What a visit discovered carries outcomes for the checks that the frontier asks for. -/
theorem Laid.children_layout (h : st.Laid f p) {before after : List OpenVisit} {item : SearchItem}
    {version : Option QualifiedName} {outcome : Except BranchError Visit}
    (running : st.running = before ++ ⟨item, version, .settled outcome⟩ :: after) :
    ∀ child ∈ Visit.children outcome, child.layout = st.session.frontier.checks := by
  intro child hchild
  have hsettled : OpenVisit.mk item version (.settled outcome) ∈ st.running := by simp [running]
  rw [((h.founded _ hsettled).child_spec hchild).1, h.checks]
  exact h.running _ hsettled

/-- At the end of a visit the frontier takes in what the visit discovered of unclaimed bundles. -/
theorem Laid.complete_frontier (h : st.Laid f p) {before after : List OpenVisit} {item : SearchItem}
    {version : Option QualifiedName} {outcome : Except BranchError Visit}
    (running : st.running = before ++ ⟨item, version, .settled outcome⟩ :: after) :
    (st.session.complete item.bundleId version outcome).frontier =
      { st.session.frontier with
        items := Frontier.insertAll
          ((st.session.complete item.bundleId version outcome).unclaimed (Visit.children outcome))
          st.session.frontier.items } :=
  st.session.complete_frontier item.bundleId version outcome (h.children_layout running)

/-- What a visit discovers carries the checks of an item being visited and is at most as credible. -/
theorem Laid.discovered_spec (h : st.Laid f p) (hchange : Change f p st e st') {y : SearchItem}
    (hy : y ∈ e.discovered) : ∃ x ∈ st.items, y.layout = x.layout ∧ x.AtLeast y := by
  cases hchange with
  | @ended before after item version outcome running =>
    have hsettled : OpenVisit.mk item version (.settled outcome) ∈ st.running := by simp [running]
    refine ⟨item, ?_, (h.founded _ hsettled).child_spec hy⟩
    exact List.mem_append_right _ (List.mem_map.2 ⟨_, hsettled, rfl⟩)
  | claimed | returned | exhausted | followed | examined | elsewhere => cases hy

/-- The items of a state are the earlier ones and those that were discovered. -/
theorem Laid.mem_items (h : st.Laid f p) (hchange : Change f p st e st') {y : SearchItem}
    (hy : y ∈ st'.items) : y ∈ st.items ∨ y ∈ e.discovered := by
  cases hchange with
  | @claimed passed rest t item passes front free top within =>
    have hitems := passes.items_eq
    rw [front] at hitems
    simp only [items, Session.claim, Session.withItems, hitems, List.map_append, List.map_cons,
      List.map_nil, OpenVisit.start, List.mem_append, List.mem_cons, List.not_mem_nil] at hy ⊢
    tauto
  | @returned passed rest t item passes front free outranked =>
    have hitems := passes.items_eq
    rw [front] at hitems
    simp only [items, Session.withItems, hitems, List.mem_append, List.mem_cons,
      Frontier.mem_insert] at hy ⊢
    tauto
  | exhausted passes empty =>
    simp only [items, passes.items_eq, List.mem_append] at hy ⊢
    tauto
  | followed running result =>
    obtain ⟨hitem, -⟩ := followReference_founded result
    obtain ⟨hfrontier, -, -⟩ := followReference_frame result
    simp only [items, hfrontier, running, List.map_append, List.map_cons, hitem] at hy ⊢
    exact .inl hy
  | examined running =>
    simp only [items, running, List.map_append, List.map_cons] at hy ⊢
    exact .inl hy
  | @ended before after item version outcome running =>
    -- the only change that brings in items which were not there
    simp only [items, h.complete_frontier running, running, List.map_append, List.map_cons, List.mem_append,
      List.mem_cons, Frontier.mem_insertAll, Event.discovered] at hy ⊢
    rcases hy with (hy | hy) | hy
    · exact .inr (List.mem_of_mem_filter hy)
    · tauto
    · tauto
  | elsewhere call => exact .inl hy

/-- The checks of the frontier never change. -/
theorem Laid.checks_eq (h : st.Laid f p) (hchange : Change f p st e st') :
    st'.session.frontier.checks = st.session.frontier.checks := by
  cases hchange with
  | claimed passes front free top within => exact passes.checks_eq
  | returned passes front free outranked => exact passes.checks_eq
  | exhausted passes empty => exact passes.checks_eq
  | followed running result => exact congrArg Frontier.checks (followReference_frame result).1
  | examined running => rfl
  | @ended before after item version outcome running =>
    show (st.session.complete item.bundleId version outcome).frontier.checks = _
    rw [h.complete_frontier running]
  | elsewhere call => rfl

/-- The visits under way after a change are founded as before. -/
theorem Laid.founded_change (h : st.Laid f p) (hchange : Change f p st e st') :
    ∀ v ∈ st'.running, v.Founded f p := by
  -- all visits but at most one are those of before
  have hkept {before after : List OpenVisit} {v w : OpenVisit} (hrunning : st.running = before ++ v :: after)
      (hw : w.Founded f p) : ∀ v ∈ before ++ w :: after, v.Founded f p := by
    intro u hu
    rcases List.mem_append.1 hu with hu | hu
    · exact h.founded u (by simp [hrunning, hu])
    · rcases List.mem_cons.1 hu with rfl | hu
      · exact hw
      · exact h.founded u (by simp [hrunning, hu])
  cases hchange with
  | @claimed passed rest t item passes front free top within =>
    intro v hv
    rcases List.mem_append.1 hv with hv | hv
    · exact h.founded v hv
    · obtain rfl := List.mem_singleton.1 hv
      exact .start item
  | returned passes front free outranked => exact h.founded
  | exhausted passes empty => exact h.founded
  | followed running result => exact hkept running (followReference_founded result).2
  | @examined before after item version l running =>
    obtain ⟨rfl, hleads⟩ := (h.founded ⟨item, version, .located l⟩ (by simp [running])).of_located
    exact hkept running (.examined hleads st.verifier)
  | ended running =>
    intro v hv
    refine h.founded v ?_
    rw [running]
    simp only [List.mem_append, List.mem_cons] at hv ⊢
    tauto
  | elsewhere call => exact h.founded

/-- Every change keeps the layout. -/
theorem Laid.change (h : st.Laid f p) (hchange : Change f p st e st') : st'.Laid f p := by
  have hitems (y : SearchItem) (hy : y ∈ st'.items) : y.layout = p.layout := by
    rcases h.mem_items hchange hy with hy | hy
    · exact h.layout hy
    · obtain ⟨x, hx, hlayout, -⟩ := h.discovered_spec hchange hy
      exact hlayout.trans (h.layout hx)
  refine ⟨(h.checks_eq hchange).trans h.checks, ?_, ?_, h.founded_change hchange⟩
  · exact fun y hy => hitems y (List.mem_append_left _ hy)
  · exact fun v hv => hitems v.item (List.mem_append_right _ (List.mem_map.2 ⟨v, hv, rfl⟩))

end SearchState

/-! ## Induction over runs -/

namespace Run

variable {start st : SearchState} {es : List Event}

/-- Every run keeps the state laid out. -/
theorem laid (hstart : start.Laid f p) (h : Run f p start es st) : st.Laid f p := by
  induction h with
  | nil => exact hstart
  | step _ hmove ih => exact ih.change (SearchState.move_change ih.fits hmove)

/-- What holds at the start of a run and is kept by every change holds throughout the run. -/
theorem induct {motive : List Event → SearchState → Prop} (hstart : start.Laid f p)
    (nil : motive [] start)
    (step : ∀ es st e st', st.Laid f p → motive es st → Change f p st e st' → motive (es ++ [e]) st')
    (h : Run f p start es st) : motive es st := by
  induction h with
  | nil => exact nil
  | @step es st st' m e run hmove ih =>
    have hlaid := run.laid hstart
    exact step es st e st' hlaid ih (SearchState.move_change hlaid.fits hmove)

end Run

/-! ## The start of a search -/

/-- A frontier without items takes in the first item of a search for its checks. -/
theorem Frontier.push_seed (bundle entry : QualifiedName) (checks : List String) :
    (Frontier.empty checks).push (.seed bundle entry checks) =
      .ok ⟨checks, [.seed bundle entry checks]⟩ :=
  Frontier.push_eq_ok (f := .empty checks) (SearchItem.layout_seed bundle entry checks)

/-- A request that is accepted starts with its first item waiting, which nothing speaks against yet. -/
theorem Engine.prepare_eq_ok {r : SearchRequest} {s : Session}
    (h : Engine.prepare f r = .ok (p, s)) :
    ∃ entry, r.startNodeId = some entry ∧
      s = .start ⟨p.layout, [.seed r.bundleId entry p.layout]⟩ := by
  unfold Engine.prepare at h
  split at h
  · cases h
  · rename_i entry hentry
    split at h
    · cases h
    · split at h
      · cases h
      · simp only [Frontier.push_seed] at h
        obtain ⟨rfl, rfl⟩ := Prod.mk.inj (Except.ok.inj h)
        exact ⟨entry, hentry, rfl⟩

/-- At its start a search has its first item waiting, and neither outcomes nor answers. -/
theorem Engine.initial_of_prepare {r : SearchRequest} {s : Session}
    (h : Engine.prepare f r = .ok (p, s)) :
    ∃ entry, r.startNodeId = some entry ∧ s.frontier.items = [.seed r.bundleId entry p.layout] ∧
      s.visited = [] ∧ s.results = [] := by
  obtain ⟨entry, hentry, rfl⟩ := Engine.prepare_eq_ok h
  exact ⟨entry, hentry, rfl, rfl, rfl⟩

/-- The plan for a request is what the request asks for. -/
theorem Engine.plan_of_prepare {r : SearchRequest} {s : Session}
    (h : Engine.prepare f r = .ok (p, s)) :
    BundleQuery.ofJson r.queryType r.querySpecification = .ok p.query ∧
      f.validity.select r.validityChecks = .ok p.checks ∧ p.direction = r.direction ∧
        p.preference = r.versionPreference := by
  unfold Engine.prepare at h
  split at h
  · cases h
  · split at h
    · cases h
    · rename_i query hquery
      split at h
      · cases h
      · rename_i checks hchecks
        simp only at h
        split at h
        · cases h
        · obtain ⟨rfl, -⟩ := Prod.mk.inj (Except.ok.inj h)
          exact ⟨hquery, hchecks, rfl, rfl⟩

/-- The start of a search is laid out as its plan says. -/
theorem Engine.laid_of_prepare {r : SearchRequest} {s : Session} {v : Verifier}
    (h : Engine.prepare f r = .ok (p, s)) : (SearchState.initial s v).Laid f p := by
  obtain ⟨entry, -, rfl⟩ := Engine.prepare_eq_ok h
  refine ⟨rfl, ?_, ?_, ?_⟩
  · intro item hitem
    obtain rfl := List.mem_singleton.1 hitem
    exact SearchItem.layout_seed _ _ _
  · simp [SearchState.initial]
  · simp [SearchState.initial]

end ProvenanceTrail
