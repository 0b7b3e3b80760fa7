import ProvenanceTrail.Proofs.Search.Queue
import ProvenanceTrail.Search.Session

/-!
# What the operations of a session change

Each operation of a session changes few of its fields. The simp lemmas here say which, and `Visits.find?`
is described after each way of recording an outcome. What a completed visit records is named apart, as
`Visit.endings`, so that proofs about outcomes need not look into `Session.complete` again.
-/

namespace ProvenanceTrail

namespace Visits

/-- The first record of an id is the one found. -/
theorem find?_cons (id other : QualifiedName) (outcome : VisitOutcome) (visits : Visits) :
    find? id ((other, outcome) :: visits) = if id = other then some outcome else find? id visits := by
  by_cases h : id = other
  · simp [find?, h]
  · simp [find?, h, Ne.symm h]

/-- A recorded outcome is found, and recording it changes no other one. -/
theorem find?_insert (id other : QualifiedName) (outcome : VisitOutcome) (visits : Visits) :
    find? id (insert other outcome visits) =
      if id = other then some outcome else find? id visits := by
  induction visits with
  | nil => rw [insert, find?_cons]
  | cons v rest ih =>
    obtain ⟨name, old⟩ := v
    unfold insert
    split
    · rename_i h
      subst h
      rw [find?_cons, find?_cons]
      split <;> simp_all
    · split
      · rw [find?_cons]
      · rename_i hne _
        rw [find?_cons, ih, find?_cons]
        split
        · rename_i h
          rw [if_neg (fun h' => hne (h'.symm.trans h))]
        · rfl

/-- Records several outcomes, one after the other. -/
def insertAll (records : List (QualifiedName × VisitOutcome)) (visits : Visits) : Visits :=
  records.foldl (fun visits r => insert r.1 r.2 visits) visits

/-- Recording outcomes changes nothing for a bundle that is not among them. -/
theorem find?_insertAll_of_notMem {id : QualifiedName}
    {records : List (QualifiedName × VisitOutcome)} {visits : Visits}
    (h : id ∉ records.map Prod.fst) : find? id (insertAll records visits) = find? id visits := by
  induction records generalizing visits with
  | nil => rfl
  | cons r rest ih =>
    rw [List.map_cons, List.mem_cons, not_or] at h
    rw [insertAll, List.foldl_cons, ← insertAll, ih h.2, find?_insert, if_neg h.1]

/-- A bundle with a record has one of its recorded outcomes afterwards. -/
theorem exists_find?_insertAll {id : QualifiedName} {records : List (QualifiedName × VisitOutcome)}
    {visits : Visits} (h : id ∈ records.map Prod.fst) :
    ∃ outcome, (id, outcome) ∈ records ∧ find? id (insertAll records visits) = some outcome := by
  induction records generalizing visits with
  | nil => simp at h
  | cons r rest ih =>
    rw [insertAll, List.foldl_cons, ← insertAll]
    -- the last record of the bundle is the one that stays
    by_cases hrest : id ∈ rest.map Prod.fst
    · obtain ⟨outcome, hmem, hfind⟩ := ih hrest
      exact ⟨outcome, List.mem_cons_of_mem _ hmem, hfind⟩
    · rw [List.map_cons, List.mem_cons] at h
      obtain rfl := h.resolve_right hrest
      refine ⟨r.2, List.mem_cons_self, ?_⟩
      rw [find?_insertAll_of_notMem hrest, find?_insert, if_pos rfl]

/-- A bundle with a record has an outcome afterwards. -/
theorem isSome_find?_insertAll {id : QualifiedName} {records : List (QualifiedName × VisitOutcome)}
    {visits : Visits} (h : id ∈ records.map Prod.fst) :
    (find? id (insertAll records visits)).isSome := by
  obtain ⟨outcome, -, hfind⟩ := exists_find?_insertAll h
  rw [hfind]
  rfl

/-- An outcome after recording is one of those recorded or was there before. -/
theorem mem_or_find?_of_find?_insertAll {id : QualifiedName} {outcome : VisitOutcome}
    {records : List (QualifiedName × VisitOutcome)} {visits : Visits}
    (h : find? id (insertAll records visits) = some outcome) :
    (id, outcome) ∈ records ∨ find? id visits = some outcome := by
  by_cases hid : id ∈ records.map Prod.fst
  · obtain ⟨outcome', hmem, hfind⟩ := exists_find?_insertAll hid
    obtain rfl := Option.some.inj (hfind.symm.trans h)
    exact .inl hmem
  · exact .inr ((find?_insertAll_of_notMem hid).symm.trans h)

/-- Of several outcomes recorded one after the other, the last one stays. -/
theorem find?_insertAll_concat (records : List (QualifiedName × VisitOutcome)) (id : QualifiedName)
    (outcome : VisitOutcome) (visits : Visits) :
    find? id (insertAll (records ++ [(id, outcome)]) visits) = some outcome := by
  rw [insertAll, List.foldl_append, List.foldl_cons, List.foldl_nil, find?_insert, if_pos rfl]

/-- A bundle without an outcome is none of those listed. -/
theorem find?_eq_none_iff {id : QualifiedName} {visits : Visits} :
    find? id visits = none ↔ id ∉ visits.map Prod.fst := by
  rw [find?, Option.map_eq_none_iff, List.find?_eq_none]
  constructor
  · intro h hid
    obtain ⟨v, hv, rfl⟩ := List.mem_map.1 hid
    exact h v hv (beq_self_eq_true v.1)
  · intro h v hv hsame
    exact h (eq_of_beq hsame ▸ List.mem_map_of_mem hv)

/-- Recording the first outcome of a bundle adds it to the others. -/
theorem insert_perm {id : QualifiedName} {outcome : VisitOutcome} {visits : Visits}
    (h : id ∉ visits.map Prod.fst) : (insert id outcome visits).Perm ((id, outcome) :: visits) := by
  induction visits with
  | nil => exact .refl _
  | cons v rest ih =>
    obtain ⟨name, old⟩ := v
    rw [List.map_cons, List.mem_cons, not_or] at h
    rw [insert, if_neg h.1]
    split
    · exact .refl _
    · exact ((ih h.2).cons (name, old)).trans (.swap _ _ _)

/-- Recording the first outcomes of different bundles adds them to the others. -/
theorem insertAll_perm {records : List (QualifiedName × VisitOutcome)} {visits : Visits}
    (h : (records.map Prod.fst ++ visits.map Prod.fst).Nodup) :
    (insertAll records visits).Perm (records ++ visits) := by
  induction records generalizing visits with
  | nil => exact .refl _
  | cons r rest ih =>
    rw [List.map_cons, List.cons_append, List.nodup_cons, List.mem_append, not_or] at h
    obtain ⟨⟨hrest, hfresh⟩, hdistinct⟩ := h
    have hinsert : (insert r.1 r.2 visits).Perm (r :: visits) := insert_perm hfresh
    have hothers : (rest.map Prod.fst ++ (insert r.1 r.2 visits).map Prod.fst).Nodup := by
      refine ((hinsert.map Prod.fst).append_left _ |>.nodup_iff).2 ?_
      rw [List.map_cons, List.perm_middle.nodup_iff, List.nodup_cons, List.mem_append, not_or]
      exact ⟨⟨hrest, hfresh⟩, hdistinct⟩
    rw [insertAll, List.foldl_cons, ← insertAll]
    exact (ih hothers).trans ((hinsert.append_left rest).trans List.perm_middle)

/-- The text that is reported when a bundle is skipped. -/
def skipText? : QualifiedName × VisitOutcome → Option String
  | (id, .skipped _ message) => some s!"Error while processing bundle {id}: {message}"
  | _ => none

end Visits

namespace Visit

/-- The items that a visit discovered, whether or not they are wanted. -/
def children : Except BranchError Visit → List SearchItem
  | .ok (.searched _ _ children) => children
  | _ => []

/-- The answer that a visit reports, if it reports one. -/
def result? : Except BranchError Visit → Option FoundResult
  | .ok (.searched result _ _) => result
  | _ => none

/-- The outcomes that the end of a visit records, in their order: of the referenced bundle, and of the
other version that it had claimed if it had. -/
def endings (referenced : QualifiedName) (version : Option QualifiedName) :
    Except BranchError Visit → List (QualifiedName × VisitOutcome)
  | .ok (.redirected target) => [(referenced, .redirected target)]
  | .ok (.searched _ found _) =>
    version.toList.map (fun v => (referenced, .redirected v)) ++
      [(version.getD referenced, if found then .found else .notFound)]
  | .error e => (version.toList ++ [referenced]).map fun id => (id, .skipped e.code e.message)

/-- The end of a visit records outcomes of bundles only that the visit holds. -/
theorem map_fst_endings_subset (referenced : QualifiedName) (version : Option QualifiedName)
    (outcome : Except BranchError Visit) :
    (endings referenced version outcome).map Prod.fst ⊆ referenced :: version.toList := by
  rcases outcome with e | (target | ⟨result, found, children⟩) <;>
    cases version <;>
    simp [endings]

end Visit

namespace Session

variable (s : Session)

/-- The bundles in flight. -/
def inFlightIds : List QualifiedName := s.inFlight.map Prod.fst

/-- An id is in flight just if it is among those in flight. -/
theorem isInFlight_iff {id : QualifiedName} : s.isInFlight id = true ↔ id ∈ s.inFlightIds := by
  simp [isInFlight, inFlightIds]

/-- An id is claimed just if it is in flight or has an outcome. -/
theorem isClaimed_iff {id : QualifiedName} :
    s.isClaimed id = true ↔ id ∈ s.inFlightIds ∨ (Visits.find? id s.visited).isSome := by
  rw [isClaimed, Bool.or_eq_true, isInFlight_iff, Visits.has]

/-- A bundle that is not claimed is neither in flight nor done. -/
theorem isClaimed_eq_false_iff {id : QualifiedName} :
    s.isClaimed id = false ↔ id ∉ s.inFlightIds ∧ Visits.find? id s.visited = none := by
  rw [Bool.eq_false_iff, ne_eq, isClaimed_iff, not_or, Option.not_isSome_iff_eq_none]

/-- Whether a bundle is claimed depends on the bundles in flight and on the outcomes only. -/
theorem isClaimed_congr {s t : Session} (hflight : t.inFlight = s.inFlight)
    (hvisited : t.visited = s.visited) (id : QualifiedName) : t.isClaimed id = s.isClaimed id := by
  simp [isClaimed, isInFlight, hflight, hvisited]

/-- Claiming a bundle adds it to the claimed ones. -/
theorem isClaimed_claim_iff {id other : QualifiedName} {item : SearchItem} :
    (s.claim other item).isClaimed id = true ↔ s.isClaimed id = true ∨ id = other := by
  rw [isClaimed_iff, isClaimed_iff, inFlightIds, inFlightIds, claim, List.map_append, List.mem_append,
    List.map_singleton, List.mem_singleton]
  tauto

/-! ## Putting items into the frontier -/

/-- The session with other items waiting. -/
def withItems (items : List SearchItem) : Session :=
  { s with frontier := { s.frontier with items := items } }

/-- The items put in last are those that wait. -/
@[simp] theorem withItems_withItems (items items' : List SearchItem) :
    (s.withItems items).withItems items' = s.withItems items' := rfl

/-- An item with the checks of the session goes into the frontier, and nothing else changes. -/
theorem enqueue_of_layout {item : SearchItem} (h : item.layout = s.frontier.checks) :
    s.enqueue item = s.withItems (Frontier.insert item s.frontier.items) := by
  rw [enqueue, Frontier.push_eq_ok h]
  rfl

/-- Discovering an item leaves all but the items that wait. -/
@[simp] theorem enqueue_inFlight (item : SearchItem) : (s.enqueue item).inFlight = s.inFlight := by
  unfold enqueue
  split <;> rfl

@[simp] theorem enqueue_visited (item : SearchItem) : (s.enqueue item).visited = s.visited := by
  unfold enqueue
  split <;> rfl

@[simp] theorem enqueue_results (item : SearchItem) : (s.enqueue item).results = s.results := by
  unfold enqueue
  split <;> rfl

@[simp] theorem enqueue_started (item : SearchItem) : (s.enqueue item).started = s.started := by
  unfold enqueue
  split <;> rfl

/-- Discovering items leaves all but the items that wait. -/
@[simp] theorem enqueueAll_inFlight (children : List SearchItem) :
    (s.enqueueAll children).inFlight = s.inFlight := by
  induction children generalizing s with
  | nil => rfl
  | cons child rest ih =>
    rw [enqueueAll, List.foldl_cons, ← enqueueAll, ih]
    split
    · rfl
    · exact s.enqueue_inFlight child

@[simp] theorem enqueueAll_visited (children : List SearchItem) :
    (s.enqueueAll children).visited = s.visited := by
  induction children generalizing s with
  | nil => rfl
  | cons child rest ih =>
    rw [enqueueAll, List.foldl_cons, ← enqueueAll, ih]
    split
    · rfl
    · exact s.enqueue_visited child

@[simp] theorem enqueueAll_results (children : List SearchItem) :
    (s.enqueueAll children).results = s.results := by
  induction children generalizing s with
  | nil => rfl
  | cons child rest ih =>
    rw [enqueueAll, List.foldl_cons, ← enqueueAll, ih]
    split
    · rfl
    · exact s.enqueue_results child

@[simp] theorem enqueueAll_started (children : List SearchItem) :
    (s.enqueueAll children).started = s.started := by
  induction children generalizing s with
  | nil => rfl
  | cons child rest ih =>
    rw [enqueueAll, List.foldl_cons, ← enqueueAll, ih]
    split
    · rfl
    · exact s.enqueue_started child

/-- The items of a list whose bundles are not claimed. -/
def unclaimed (children : List SearchItem) : List SearchItem :=
  children.filter fun child => !s.isClaimed child.bundleId

/-- Items with the checks of the session go into the frontier one by one, those of claimed bundles left
out. -/
theorem enqueueAll_of_layout {children : List SearchItem}
    (h : ∀ child ∈ children, child.layout = s.frontier.checks) :
    s.enqueueAll children =
      s.withItems (Frontier.insertAll (s.unclaimed children) s.frontier.items) := by
  induction children generalizing s with
  | nil => rfl
  | cons child rest ih =>
    rw [enqueueAll, List.foldl_cons, ← enqueueAll]
    cases hclaimed : s.isClaimed child.bundleId with
    | true =>
      rw [if_pos rfl, ih s fun c hc => h c (by simp [hc]), unclaimed, unclaimed,
        List.filter_cons_of_neg (by simp [hclaimed])]
    | false =>
      rw [if_neg (by simp), s.enqueue_of_layout (h child (by simp)),
        ih (s.withItems (Frontier.insert child s.frontier.items)) fun c hc => h c (by simp [hc]),
        unclaimed, unclaimed,
        List.filter_cons_of_pos (by simp [hclaimed]), Frontier.insertAll_cons]
      rfl

/-! ## The end of a visit -/

section Complete

variable (referenced : QualifiedName) (version : Option QualifiedName)
  (outcome : Except BranchError Visit)

/-- The end of a visit gives up the bundles that the visit holds, and no others. -/
theorem complete_inFlight :
    (s.complete referenced version outcome).inFlight =
      s.inFlight.filter fun c => c.1 ∉ referenced :: version.toList := by
  rcases outcome with e | (target | ⟨result, found, children⟩) <;>
    cases version <;>
    simp [complete, release, record, skip, report, List.filter_filter, Bool.and_comm, bne,
      Bool.beq_eq_decide_eq]

/-- The end of a visit records its endings. -/
theorem complete_visited :
    (s.complete referenced version outcome).visited =
      Visits.insertAll (Visit.endings referenced version outcome) s.visited := by
  rcases outcome with e | (target | ⟨result, found, children⟩) <;>
    cases version <;>
    simp [complete, release, record, skip, report, Visit.endings, Visits.insertAll]

/-- The end of a visit adds its answer to the results. -/
theorem complete_results :
    (s.complete referenced version outcome).results =
      s.results ++ (Visit.result? outcome).toList := by
  rcases outcome with e | (target | ⟨result, found, children⟩) <;>
    cases version <;>
    simp [complete, release, record, skip, report, Visit.result?]

/-- The end of a visit starts none. -/
theorem complete_started :
    (s.complete referenced version outcome).started = s.started := by
  rcases outcome with e | (target | ⟨result, found, children⟩) <;>
    cases version <;>
    simp [complete, release, record, skip, report]

/-- What is left of the session at the end of a visit before the discovered items are looked at. Bundles
that were skipped have been reported. -/
theorem exists_complete_eq_enqueueAll :
    ∃ t : Session, t.frontier = s.frontier ∧
      t.errors = s.errors ++
        (Visit.endings referenced version outcome).filterMap Visits.skipText? ∧
      s.complete referenced version outcome = t.enqueueAll (Visit.children outcome) := by
  rcases outcome with e | (target | ⟨result, found, children⟩)
  · cases version <;>
      exact ⟨_, by simp [release, record, skip, report],
        by simp [release, record, skip, report, Visit.endings, Visits.skipText?], rfl⟩
  · cases version <;>
      exact ⟨_, by simp [release], by simp [release, Visit.endings, Visits.skipText?], rfl⟩
  · cases version <;> cases found <;>
      exact ⟨_, by simp [release, record], by simp [release, record, Visit.endings, Visits.skipText?],
        rfl⟩

/-- The discovered items of unclaimed bundles go into the frontier at the end of a visit. -/
theorem complete_frontier
    (h : ∀ child ∈ Visit.children outcome, child.layout = s.frontier.checks) :
    (s.complete referenced version outcome).frontier =
      { s.frontier with
        items := Frontier.insertAll
          ((s.complete referenced version outcome).unclaimed (Visit.children outcome))
          s.frontier.items } := by
  obtain ⟨t, hfrontier, -, hcomplete⟩ := s.exists_complete_eq_enqueueAll referenced version outcome
  have hclaimed (id : QualifiedName) :
      (t.enqueueAll (Visit.children outcome)).isClaimed id = t.isClaimed id :=
    t.isClaimed_congr (t.enqueueAll_inFlight _) (t.enqueueAll_visited _) id
  rw [hcomplete]
  simp only [unclaimed, hclaimed]
  rw [t.enqueueAll_of_layout (by rw [hfrontier]; exact h), withItems, unclaimed, hfrontier]

/-- The end of a visit reports the bundles that it skips, and nothing else. -/
theorem complete_errors (h : ∀ child ∈ Visit.children outcome, child.layout = s.frontier.checks) :
    (s.complete referenced version outcome).errors =
      s.errors ++ (Visit.endings referenced version outcome).filterMap Visits.skipText? := by
  obtain ⟨t, hfrontier, herrors, hcomplete⟩ :=
    s.exists_complete_eq_enqueueAll referenced version outcome
  rw [hcomplete, t.enqueueAll_of_layout (by rw [hfrontier]; exact h), ← herrors]
  rfl

end Complete

end Session

end ProvenanceTrail
