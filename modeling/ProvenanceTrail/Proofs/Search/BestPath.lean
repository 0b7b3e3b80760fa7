import ProvenanceTrail.Proofs.Search.Credibility

/-!
# The best path to a bundle

A bundle is expanded through the most credible of all the items that lead to it, also of those that turn
up later. Until somebody claims the bundle, no item that leads to it leaves the frontier (`Tracked.waiting`),
so the item through which it is claimed bounds all of them. Whatever turns up later is bounded as
well, since a claimed item stays a bound. This covers a version that a visit claims after the fact: if it
is free then, no item that leads to it has been lost.
-/

namespace ProvenanceTrail

variable {f : Federation} {p : SearchPlan}

/-- The bundles that were claimed in a run, each with the item through which it was. -/
def claimsOf (es : List Event) : List (QualifiedName × SearchItem) := es.flatMap Event.claims

/-- The items that came up in a search: those that it started with and those that visits discovered. -/
def createdItems (s : Session) (es : List Event) : List SearchItem :=
  s.frontier.items ++ discoveredItems es

/-- A visit searched a bundle through an item, as the bundle that the item refers to or as the version that
its reference led to. -/
def Expands (es : List Event) (b : QualifiedName) (x : SearchItem) : Prop :=
  ∃ version result found children admitted,
    Event.ended x version (.ok (.searched result found children)) admitted ∈ es ∧
      (b = x.bundleId ∨ version = some b)

/-- One more event adds its claims. -/
theorem mem_claimsOf_concat {es : List Event} {e : Event} {c : QualifiedName × SearchItem} :
    c ∈ claimsOf (es ++ [e]) ↔ c ∈ claimsOf es ∨ c ∈ e.claims := by
  simp [claimsOf]

/-- One more event adds what it discovers. -/
theorem mem_createdItems_concat {s : Session} {es : List Event} {e : Event} {y : SearchItem} :
    y ∈ createdItems s (es ++ [e]) ↔ y ∈ createdItems s es ∨ y ∈ e.discovered := by
  rw [createdItems, discoveredItems_concat, ← List.append_assoc, List.mem_append, createdItems]

/-! ## Items that wait -/

namespace Change

variable {st st' : SearchState} {e : Event} {y : SearchItem}

/-- An item that waits goes on waiting, until its bundle is claimed. -/
theorem waiting_kept (hlaid : st.Laid f p) (h : Change f p st e st')
    (hy : y ∈ st.session.frontier.items) :
    y ∈ st'.session.frontier.items ∨ st'.session.isClaimed y.bundleId = true := by
  cases h with
  -- the item is passed over, is the one claimed, or waits behind it
  | @claimed passed rest t item passes front free top within =>
    have hclaim : (t.withItems rest |>.claim item.bundleId item).isClaimed y.bundleId = true ↔
        t.isClaimed y.bundleId = true ∨ y.bundleId = item.bundleId :=
      (t.withItems rest).isClaimed_claim_iff
    rw [passes.items_eq, front] at hy
    rcases List.mem_append.1 hy with hy | hy
    · exact .inr (hclaim.2 (.inl (passes.isClaimed_of_mem hy)))
    · rcases List.mem_cons.1 hy with rfl | hy
      · exact .inr (hclaim.2 (.inr rfl))
      · exact .inl hy
  | @returned passed rest t item passes front free outranked =>
    rw [passes.items_eq, front] at hy
    rcases List.mem_append.1 hy with hy | hy
    · exact .inr (passes.isClaimed_of_mem hy)
    · exact .inl (Frontier.mem_insert.2 (List.mem_cons.1 hy))
  | exhausted passes empty =>
    rw [passes.items_eq, empty, List.append_nil] at hy
    exact .inr (passes.isClaimed_of_mem hy)
  | followed running result =>
    obtain ⟨hfrontier, -, -⟩ := followReference_frame result
    rw [← hfrontier] at hy
    exact .inl hy
  | examined running => exact .inl hy
  | @ended before after item version outcome running =>
    left
    show y ∈ (st.session.complete item.bundleId version outcome).frontier.items
    rw [hlaid.complete_frontier running]
    exact Frontier.mem_insertAll.2 (.inr hy)
  | elsewhere call => exact .inl hy

/-- An item that is discovered waits, unless its bundle is claimed already. -/
theorem waiting_of_discovered (hlaid : st.Laid f p) (h : Change f p st e st')
    (hy : y ∈ e.discovered) :
    y ∈ st'.session.frontier.items ∨ st'.session.isClaimed y.bundleId = true := by
  cases h with
  | @ended before after item version outcome running =>
    show y ∈ (st.session.complete item.bundleId version outcome).frontier.items ∨
      (st.session.complete item.bundleId version outcome).isClaimed y.bundleId = true
    rw [hlaid.complete_frontier running]
    cases hclaimed : (st.session.complete item.bundleId version outcome).isClaimed y.bundleId with
    | true => exact .inr rfl
    | false =>
      refine .inl (Frontier.mem_insertAll.2 (.inl ?_))
      exact List.mem_filter.2 ⟨hy, by simp [hclaimed]⟩
  | claimed | returned | exhausted | followed | examined | elsewhere => cases hy

/-- A bundle that a change claims was free before, and no item that waited for it is lost: the others go on
waiting, and the one through which it is claimed is being visited. -/
theorem mem_items_of_claims (h : Change f p st e st') {c : QualifiedName × SearchItem}
    (hc : c ∈ e.claims) :
    st.session.isClaimed c.1 = false ∧
      ∀ y ∈ st.session.frontier.items, y.bundleId = c.1 → y ∈ st'.items := by
  cases h with
  | @claimed passed rest t item passes front free top within =>
    obtain rfl := List.mem_singleton.1 hc
    refine ⟨?_, fun y hy (hbundle : y.bundleId = item.bundleId) => ?_⟩
    · cases hclaimed : st.session.isClaimed item.bundleId with
      | false => rfl
      | true =>
        rw [passes.isClaimed_mono hclaimed] at free
        cases free
    · rw [passes.items_eq, front] at hy
      rcases List.mem_append.1 hy with hy | hy
      · -- what is passed over leads to claimed bundles, and this one is free
        rw [← hbundle, passes.isClaimed_of_mem hy] at free
        cases free
      · rcases List.mem_cons.1 hy with rfl | hy
        · exact List.mem_append_right _ (by simp [OpenVisit.start])
        · exact List.mem_append_left _ hy
  | @followed before after item v s running result =>
    rcases followReference_claims result with ⟨hversion, -⟩ | ⟨id, hversion, -, hfree, -⟩
    · simp [Event.claims, hversion] at hc
    · obtain rfl : c = (id, item) := by simpa [Event.claims, hversion] using hc
      obtain ⟨hfrontier, -, -⟩ := followReference_frame result
      refine ⟨hfree, fun y hy _ => ?_⟩
      rw [← hfrontier] at hy
      exact List.mem_append_left _ hy
  | returned | exhausted | examined | ended | elsewhere => cases hc

/-- What a change claims is claimed after it. -/
theorem isClaimed_of_mem_claims (h : Change f p st e st') {c : QualifiedName × SearchItem}
    (hc : c ∈ e.claims) : st'.session.isClaimed c.1 = true := by
  cases h with
  | @claimed passed rest t item passes front free top within =>
    obtain rfl := List.mem_singleton.1 hc
    exact ((t.withItems rest).isClaimed_claim_iff).2 (.inr rfl)
  | @followed before after item v s running result =>
    rcases followReference_claims result with ⟨hversion, -⟩ | ⟨id, hversion, -, -, rfl⟩
    · simp [Event.claims, hversion] at hc
    · obtain rfl : c = (id, item) := by simpa [Event.claims, hversion] using hc
      exact (st.session.isClaimed_claim_iff).2 (.inr rfl)
  | returned | exhausted | examined | ended | elsewhere => cases hc

/-- An answer comes from a visit that ends, and carries the path of the visit's item joined with the
verdicts on the bundle itself. -/
theorem mem_results (hlaid : st.Laid f p) (h : Change f p st e st') {r : FoundResult}
    (hr : r ∈ st'.session.results) :
    r ∈ st.session.results ∨
      ∃ x version found children admitted,
        e = .ended x version (.ok (.searched (some r) found children)) admitted ∧
          r.bundleId = version.getD x.bundleId ∧
          r.pathIntegrity = (x.pathIntegrity && r.integrity) ∧
          r.pathValidityChecks = CheckOutcome.combine x.pathValidity r.validityChecks := by
  cases h with
  | claimed passes front free top within => exact .inl (passes.results_eq ▸ hr)
  | returned passes front free outranked => exact .inl (passes.results_eq ▸ hr)
  | exhausted passes empty => exact .inl (passes.results_eq ▸ hr)
  | followed running result => exact .inl ((followReference_frame result).2.2 ▸ hr)
  | examined running => exact .inl hr
  | @ended before after item version outcome running =>
    have hsettled : OpenVisit.mk item version (.settled outcome) ∈ st.running := by simp [running]
    change r ∈ (st.session.complete item.bundleId version outcome).results at hr
    rw [Session.complete_results] at hr
    refine (List.mem_append.1 hr).imp_right fun hnew => ?_
    -- only a search brings an answer
    rcases outcome with e | (target | ⟨result, found, children⟩)
    · simp [Visit.result?] at hnew
    · simp [Visit.result?] at hnew
    · obtain rfl : result = some r := by simpa [Visit.result?] using hnew
      obtain ⟨hbundle, -, hintegrity, hvalidity⟩ := (hlaid.founded _ hsettled).result_spec
      exact ⟨item, version, found, children, _, rfl, hbundle, hintegrity, hvalidity⟩
  | elsewhere call => exact .inl hr

end Change

/-! ## Bundles and the items they were claimed through -/

/-- Items are kept track of: each leads to a claimed bundle or waits. What is in flight, and what was
expanded, was claimed through a claimed item, to which no other item for the bundle is preferable. -/
structure SearchState.Tracked (p : SearchPlan) (s : Session) (es : List Event) (st : SearchState) :
    Prop where
  layout : ∀ y ∈ createdItems s es, y.layout = p.layout
  waiting : ∀ y ∈ createdItems s es,
    y ∈ st.session.frontier.items ∨ st.session.isClaimed y.bundleId = true
  held : ∀ c ∈ st.session.inFlight, c ∈ claimsOf es
  claimed : ∀ c ∈ claimsOf es, c.2 ∈ claimedItems es
  best : ∀ c ∈ claimsOf es, ∀ y ∈ createdItems s es, y.bundleId = c.1 → c.2.AtLeast y
  expanded : ∀ b x, Expands es b x → (b, x) ∈ claimsOf es

namespace SearchState.Tracked

variable {s : Session} {st st' : SearchState} {es : List Event} {e : Event}

/-- What a visit expands it holds. -/
theorem expanded_change (h : st.Tracked p s es) (howned : st.Owned) (hchange : Change f p st e st')
    {b : QualifiedName} {x : SearchItem} (hexpands : Expands (es ++ [e]) b x) :
    (b, x) ∈ claimsOf (es ++ [e]) := by
  obtain ⟨version, result, found, children, admitted, hmem, hb⟩ := hexpands
  rw [mem_claimsOf_concat]
  left
  rcases List.mem_append.1 hmem with hmem | hmem
  · exact h.expanded b x ⟨version, result, found, children, admitted, hmem, hb⟩
  · obtain rfl := List.mem_singleton.1 hmem
    cases hchange with
    | @ended before after item version outcome running =>
      have hvisit : OpenVisit.mk x version (.settled (.ok (.searched result found children))) ∈
          st.running := by simp [running]
      refine h.held (b, x) (howned.inFlight.mem_iff.2 (List.mem_flatMap.2 ⟨_, hvisit, ?_⟩))
      rcases hb with rfl | rfl <;> simp [OpenVisit.claims, OpenVisit.ids]

/-- The bundles that were claimed stay claimed through the best of the items that lead to them. -/
theorem best_change (h : st.Tracked p s es) (hlaid : st.Laid f p) (hranked : st.Ranked p es)
    (hchange : Change f p st e st') {c : QualifiedName × SearchItem}
    (hc : c ∈ claimsOf (es ++ [e])) {y : SearchItem} (hy : y ∈ createdItems s (es ++ [e]))
    (hbundle : y.bundleId = c.1) : c.2.AtLeast y := by
  rw [mem_claimsOf_concat] at hc
  rw [mem_createdItems_concat] at hy
  rcases hc with hc | hc
  · rcases hy with hy | hy
    · exact h.best c hc y hy hbundle
    · -- what turns up later is bounded as all items are
      exact (hranked.bounded c.2 (h.claimed c hc)).discovered hlaid hchange hy
  · obtain ⟨hfree, hkept⟩ := hchange.mem_items_of_claims hc
    have hbound := (hranked.change hlaid hchange).bounded c.2 (hranked.claims_change hchange c hc)
    have hwaits : y ∈ st.session.frontier.items := by
      rcases hy with hy | hy
      · refine (h.waiting y hy).resolve_right fun hclaimed => ?_
        rw [hbundle, hfree] at hclaimed
        cases hclaimed
      · -- a change that claims something discovers nothing
        cases hchange with
        | ended => cases hc
        | claimed | returned | exhausted | followed | examined | elsewhere => cases hy
    exact hbound.items y (hkept y hwaits hbundle)

/-- Every change keeps track of the items. -/
theorem change (h : st.Tracked p s es) (hlaid : st.Laid f p) (hranked : st.Ranked p es)
    (hchange : Change f p st e st') : st'.Tracked p s (es ++ [e]) := by
  refine ⟨?_, ?_, ?_, ?_, ?_, fun b x => h.expanded_change hranked.owned hchange⟩
  · intro y hy
    rcases mem_createdItems_concat.1 hy with hy | hy
    · exact h.layout y hy
    · obtain ⟨x, hx, hlayout, -⟩ := hlaid.discovered_spec hchange hy
      exact hlayout.trans (hlaid.layout hx)
  · intro y hy
    rcases mem_createdItems_concat.1 hy with hy | hy
    · rcases h.waiting y hy with hy | hclaimed
      · exact hchange.waiting_kept hlaid hy
      · exact .inr (hchange.isClaimed_mono hlaid hranked.owned hclaimed)
    · exact hchange.waiting_of_discovered hlaid hy
  · intro c hc
    rw [mem_claimsOf_concat]
    exact (hchange.mem_inFlight hc).imp_left (h.held c)
  · intro c hc
    rcases mem_claimsOf_concat.1 hc with hc | hc
    · rw [claimedItems_concat]
      exact List.mem_append_left _ (h.claimed c hc)
    · exact hranked.claims_change hchange c hc
  · exact fun c hc y hy => h.best_change hlaid hranked hchange hc hy

end SearchState.Tracked

/-! ## Runs -/

/-- A change claims one bundle at most. -/
theorem Event.length_claims_le (e : Event) : e.claims.length ≤ 1 := by
  cases e with
  | claimed passed item => exact Nat.le_refl 1
  | followed item version => cases version <;> simp [claims]
  | returned | exhausted | examined | ended | elsewhere => exact Nat.zero_le 1

/-- No bundle is claimed twice, neither as a referenced bundle nor as a version. -/
theorem Run.nodup_claimsOf {start st : SearchState} {es : List Event} (hlaid : start.Laid f p)
    (howned : start.Owned) (h : Run f p start es st) : ((claimsOf es).map Prod.fst).Nodup := by
  have hall : st.Owned ∧ (∀ c ∈ claimsOf es, st.session.isClaimed c.1 = true) ∧
      ((claimsOf es).map Prod.fst).Nodup := by
    refine h.induct (motive := fun es st => st.Owned ∧
      (∀ c ∈ claimsOf es, st.session.isClaimed c.1 = true) ∧ ((claimsOf es).map Prod.fst).Nodup) hlaid
      ⟨howned, by simp [claimsOf], by simp [claimsOf]⟩ ?_
    rintro es st e st' hlaid ⟨howned, hclaimed, hdistinct⟩ hchange
    refine ⟨howned.change hchange, fun c hc => ?_, ?_⟩
    · rcases mem_claimsOf_concat.1 hc with hc | hc
      · exact hchange.isClaimed_mono hlaid howned (hclaimed c hc)
      · exact hchange.isClaimed_of_mem_claims hc
    · rw [claimsOf, List.flatMap_append, List.flatMap_singleton, ← claimsOf, List.map_append]
      refine List.nodup_append.2 ⟨hdistinct, ?_, ?_⟩
      · have hle := e.length_claims_le
        match hclaims : e.claims with
        | [] => exact .nil
        | [c] => exact List.pairwise_singleton _ _
        | c :: c' :: rest => simp [hclaims] at hle
      · -- the bundle was free, unlike those that had been claimed
        intro a ha b hb hab
        obtain ⟨c, hc, rfl⟩ := List.mem_map.1 ha
        obtain ⟨c', hc', rfl⟩ := List.mem_map.1 hb
        have hfree := (hchange.mem_items_of_claims hc').1
        rw [← hab, hclaimed c hc] at hfree
        cases hfree
  exact hall.2.2

/-- The bundles of claimed items are among those that were claimed. -/
theorem map_claimedItems_sublist (es : List Event) :
    ((claimedItems es).map SearchItem.bundleId).Sublist ((claimsOf es).map Prod.fst) := by
  induction es with
  | nil => exact .refl _
  | cons e es ih =>
    rw [claimsOf, List.flatMap_cons, List.map_append, ← claimsOf]
    cases e with
    | claimed passed item => exact ih.cons_cons item.bundleId
    | returned | exhausted | followed | examined | ended | elsewhere =>
      exact ih.trans (List.sublist_append_right _ _)

/-- Every answer comes from a visit that expanded its bundle. -/
theorem Run.mem_results {start st : SearchState} {es : List Event} (hlaid : start.Laid f p)
    (hstart : start.session.results = []) (h : Run f p start es st) :
    ∀ r ∈ st.session.results, ∃ x, Expands es r.bundleId x ∧
      r.pathIntegrity = (x.pathIntegrity && r.integrity) ∧
      r.pathValidityChecks = CheckOutcome.combine x.pathValidity r.validityChecks := by
  refine h.induct (motive := fun es st => ∀ r ∈ st.session.results, ∃ x, Expands es r.bundleId x ∧
    r.pathIntegrity = (x.pathIntegrity && r.integrity) ∧
    r.pathValidityChecks = CheckOutcome.combine x.pathValidity r.validityChecks) hlaid ?_ ?_
  · simp [hstart]
  · intro es st e st' hlaid ih hchange r hr
    rcases hchange.mem_results hlaid hr with
      hr | ⟨x, version, found, children, admitted, rfl, hbundle, hpath⟩
    · obtain ⟨x, ⟨version, result, found, children, admitted, hmem, hb⟩, hpath⟩ := ih r hr
      exact ⟨x, ⟨version, result, found, children, admitted, List.mem_append_left _ hmem, hb⟩, hpath⟩
    · refine ⟨x, ⟨version, some r, found, children, admitted, by simp, ?_⟩, hpath⟩
      cases version with
      | none => exact .inl hbundle
      | some id => exact .inr (congrArg some hbundle.symm)

namespace Engine

variable {r : SearchRequest} {s : Session} {v : Verifier} {es : List Event} {st : SearchState}

/-- Every search keeps track of the best path to what it claims. -/
theorem tracked_of_prepare (hprepare : prepare f r = .ok (p, s))
    (hrun : Run f p (.initial s v) es st) : st.Tracked p s es := by
  have hboth : st.Ranked p es ∧ st.Tracked p s es := by
    refine hrun.induct (motive := fun es st => st.Ranked p es ∧ st.Tracked p s es)
      (laid_of_prepare hprepare) ⟨ranked_of_prepare hprepare .nil, ?_⟩ ?_
    · obtain ⟨entry, -, rfl⟩ := prepare_eq_ok hprepare
      refine ⟨?_, ?_, ?_, ?_, ?_, ?_⟩
      · simp [createdItems, discoveredItems, Session.start, SearchItem.layout_seed]
      · simp [createdItems, discoveredItems, SearchState.initial, Session.start]
      · simp [SearchState.initial, Session.start]
      · simp [claimsOf]
      · simp [claimsOf]
      · simp [Expands]
    · intro es st e st' hlaid ih hchange
      exact ⟨ih.1.change hlaid hchange, ih.2.change hlaid ih.1 hchange⟩
  exact hboth.2

/-- **A bundle is expanded through the best path to it.** No item that comes up in a search, whether it is
claimed, dropped or left waiting, strictly precedes the item through which a visit expands the item's
bundle. The path that an answer is tagged with is that of such an item. -/
theorem expanded_through_best_path (hprepare : prepare f r = .ok (p, s))
    (hrun : Run f p (.initial s v) es st) :
    (∀ b x, Expands es b x → ∀ y ∈ createdItems s es, y.bundleId = b → y.precedes x = .ok false) ∧
      ∀ r ∈ st.session.results, ∃ x, Expands es r.bundleId x ∧
        r.pathIntegrity = (x.pathIntegrity && r.integrity) ∧
        r.pathValidityChecks = CheckOutcome.combine x.pathValidity r.validityChecks ∧
        ∀ y ∈ createdItems s es, y.bundleId = r.bundleId → y.precedes x = .ok false := by
  have htracked := tracked_of_prepare hprepare hrun
  have hranked := ranked_of_prepare hprepare hrun
  have hbest (b : QualifiedName) (x : SearchItem) (hexpands : Expands es b x) (y : SearchItem)
      (hy : y ∈ createdItems s es) (hbundle : y.bundleId = b) : y.precedes x = .ok false := by
    have hclaim := htracked.expanded b x hexpands
    have hx : x.layout = p.layout := (hranked.bounded x (htracked.claimed _ hclaim)).layout
    rw [SearchItem.precedes_eq_ok_false_iff (hx.trans (htracked.layout y hy).symm)]
    exact htracked.best (b, x) hclaim y hy hbundle
  refine ⟨hbest, fun r hr => ?_⟩
  have hstart : (SearchState.initial s v).session.results = [] := by
    obtain ⟨entry, -, rfl⟩ := prepare_eq_ok hprepare
    rfl
  obtain ⟨x, hexpands, hintegrity, hvalidity⟩ :=
    hrun.mem_results (laid_of_prepare hprepare) hstart r hr
  exact ⟨x, hexpands, hintegrity, hvalidity, hbest r.bundleId x hexpands⟩

/-- All five bundles of the small federation are answered, each through the best path to it. -/
theorem sample_expanded_through_best_path :
    ∃ es st, Run Sample.federation Sample.plan (.initial Sample.session Sample.verifier) es st ∧
      st.session.results.map FoundResult.bundleId = ["A", "B", "C", "Y", "X"].map Sample.document ∧
      ∀ r ∈ st.session.results, ∃ x, Expands es r.bundleId x ∧
        ∀ y ∈ createdItems Sample.session es, y.bundleId = r.bundleId → y.precedes x = .ok false := by
  obtain ⟨es, st, hrun, -, hresults⟩ := exists_run_sample
  refine ⟨es, st, hrun, hresults, fun r hr => ?_⟩
  obtain ⟨x, hexpands, -, -, hbest⟩ :=
    (expanded_through_best_path Sample.prepare_request hrun).2 r hr
  exact ⟨x, hexpands, hbest⟩

end Engine

end ProvenanceTrail
