import ProvenanceTrail.Proofs.Search.Ownership

/-!
# The order of claims

Items are claimed in the order of their credibility, over the whole of a run and not only among those that
wait together. Three things work together. The frontier is sorted, so an item that is claimed is at least
as credible as all that wait. The barrier holds an item back while a visit under way outranks it, so it is
at least as credible as all that are being visited. And what a visit discovers is at most as credible as
the visit's own item, so nothing that comes later can overtake.

The first two make the item that is claimed a bound of the state (`Ranked.claimed_bounds`), the third keeps
it a bound for ever (`BoundedBy.change`).
-/

namespace ProvenanceTrail

open SearchItem (AtLeast)

variable {f : Federation} {p : SearchPlan}

/-- The items that were claimed, the first one first. -/
def claimedItems (es : List Event) : List SearchItem := es.filterMap Event.claimed?

/-- The items that visits discovered, in the order of discovery. -/
def discoveredItems (es : List Event) : List SearchItem := es.flatMap Event.discovered

/-- One more event adds the item it claims. -/
theorem claimedItems_concat (es : List Event) (e : Event) :
    claimedItems (es ++ [e]) = claimedItems es ++ e.claimed?.toList := by
  rw [claimedItems, List.filterMap_append]
  cases h : e.claimed? <;> simp [claimedItems, h]

/-- One more event adds what it discovers. -/
@[simp] theorem discoveredItems_concat (es : List Event) (e : Event) :
    discoveredItems (es ++ [e]) = discoveredItems es ++ e.discovered := by
  simp [discoveredItems]

/-- An item bounds a state if it is at least as credible as all items that wait or are being visited. -/
structure SearchState.BoundedBy (p : SearchPlan) (x : SearchItem) (st : SearchState) : Prop where
  layout : x.layout = p.layout
  items : ∀ y ∈ st.items, x.AtLeast y

namespace SearchState

variable {st st' : SearchState} {e : Event} {x y : SearchItem}

/-- What is discovered in a state is at most as credible as a bound of the state. -/
theorem BoundedBy.discovered (h : st.BoundedBy p x) (hlaid : st.Laid f p)
    (hchange : Change f p st e st') (hy : y ∈ e.discovered) : x.AtLeast y := by
  obtain ⟨z, hz, hlayout, hzy⟩ := hlaid.discovered_spec hchange hy
  exact (h.items z hz).trans (h.layout.trans (hlaid.layout hz).symm) hlayout.symm hzy

/-- A bound of a state stays one. -/
theorem BoundedBy.change (h : st.BoundedBy p x) (hlaid : st.Laid f p)
    (hchange : Change f p st e st') : st'.BoundedBy p x := by
  refine ⟨h.layout, fun y hy => ?_⟩
  rcases hlaid.mem_items hchange hy with hy | hy
  · exact h.items y hy
  · exact h.discovered hlaid hchange hy

end SearchState

/-- An item that no bundle in flight outranks is at least as credible as the items they were claimed
through. -/
theorem Session.atLeast_of_isOutranked_eq_false {s : Session} {item : SearchItem}
    (h : s.isOutranked item = false) {c : QualifiedName × SearchItem} (hc : c ∈ s.inFlight)
    (hlayout : c.2.layout = item.layout) : item.AtLeast c.2 := by
  have hbefore := List.any_eq_false.1 h c hc
  rw [SearchItem.atLeast_iff_order_ne_lt]
  intro hlt
  simp [SearchItem.precedes, SearchItem.compare_eq_ok hlayout, hlt, Except.map] at hbefore

/-- The frontier is sorted, what is in flight is so through claimed items, and everything that was claimed bounds the
state and is at least as credible as what was claimed after it. -/
structure SearchState.Ranked (p : SearchPlan) (es : List Event) (st : SearchState) : Prop where
  owned : st.Owned
  sorted : Frontier.Sorted st.session.frontier.items
  held : ∀ c ∈ st.session.inFlight, c.2 ∈ claimedItems es
  bounded : ∀ x ∈ claimedItems es, st.BoundedBy p x
  ordered : (claimedItems es).Pairwise AtLeast

namespace SearchState.Ranked

variable {st st' : SearchState} {es : List Event} {e : Event}

/-- A visit under way holds its referenced bundle through its item. -/
theorem mem_inFlight (h : st.Ranked p es) {v : OpenVisit} (hv : v ∈ st.running) :
    (v.item.bundleId, v.item) ∈ st.session.inFlight := by
  rw [h.owned.inFlight.mem_iff]
  exact List.mem_flatMap.2 ⟨v, hv, by simp [OpenVisit.claims, OpenVisit.ids]⟩

/-- What is being visited was claimed. -/
theorem started (h : st.Ranked p es) (v : OpenVisit) (hv : v ∈ st.running) :
    v.item ∈ claimedItems es := h.held _ (h.mem_inFlight hv)

/-- Every change keeps the frontier sorted. -/
theorem sorted_change (h : st.Ranked p es) (hlaid : st.Laid f p) (hchange : Change f p st e st') :
    Frontier.Sorted st'.session.frontier.items := by
  have hleft {passed : List SearchItem} {t : Session}
      (passes : Session.Passes f.settings.maxVisited st.session passed t) :
      Frontier.Sorted t.frontier.items := by
    have hsorted := h.sorted
    rw [passes.items_eq] at hsorted
    exact (List.pairwise_append.1 hsorted).2.1
  -- items leave at the front, and new ones are inserted in their places
  cases hchange with
  | claimed passes front free top within =>
    have hsorted := hleft passes
    rw [front] at hsorted
    exact (List.pairwise_cons.1 hsorted).2
  | @returned passed rest t item passes front free outranked =>
    have hsorted := hleft passes
    have hitems := hlaid.waiting
    rw [passes.items_eq, front] at hitems
    rw [front] at hsorted
    refine Frontier.sorted_insert (hitems item (by simp)) ?_ (List.pairwise_cons.1 hsorted).2
    exact fun y hy => hitems y (by simp [hy])
  | exhausted passes empty => exact hleft passes
  | followed running result =>
    obtain ⟨hfrontier, -, -⟩ := followReference_frame result
    rw [hfrontier]
    exact h.sorted
  | examined running => exact h.sorted
  | @ended before after item version outcome running =>
    have hended := Change.ended (f := f) (p := p) running
    show Frontier.Sorted (st.session.complete item.bundleId version outcome).frontier.items
    rw [hlaid.complete_frontier running]
    refine Frontier.sorted_insertAll (fun y hy => ?_) hlaid.waiting h.sorted
    obtain ⟨x, hx, hlayout, -⟩ := hlaid.discovered_spec hended (List.mem_of_mem_filter hy)
    exact hlayout.trans (hlaid.layout hx)
  | elsewhere call => exact h.sorted

/-- The item that a change claims bounds the state after it. -/
theorem claimed_bounds (h : st.Ranked p es) (hlaid : st.Laid f p) (hchange : Change f p st e st')
    {x : SearchItem} (hx : e.claimed? = some x) : st'.BoundedBy p x := by
  cases hchange with
  | @claimed passed rest t item passes front free top within =>
    obtain rfl : item = x := Option.some.inj hx
    have hitems := passes.items_eq
    rw [front] at hitems
    have hlayout : item.layout = p.layout := hlaid.waiting item (by simp [hitems])
    refine ⟨hlayout, fun y hy => ?_⟩
    rcases List.mem_append.1 hy with hy | hy
    · -- what waits comes behind the front
      have hsorted := h.sorted
      rw [hitems] at hsorted
      exact (List.pairwise_cons.1 (List.pairwise_append.1 hsorted).2.1).1 y hy
    · obtain ⟨v, hv, rfl⟩ := List.mem_map.1 hy
      rcases List.mem_append.1 hv with hv | hv
      · -- what is being visited does not outrank the item
        have hclaim : (v.item.bundleId, v.item) ∈ t.inFlight := by
          rw [passes.inFlight_eq]
          exact h.mem_inFlight hv
        exact Session.atLeast_of_isOutranked_eq_false top hclaim
          ((hlaid.running v hv).trans hlayout.symm)
      · obtain rfl := List.mem_singleton.1 hv
        exact .refl item
  | returned | exhausted | followed | examined | ended | elsewhere => cases hx

/-- A change claims bundles through items only that were claimed then or before. -/
theorem claims_change (h : st.Ranked p es) (hchange : Change f p st e st') :
    ∀ c ∈ e.claims, c.2 ∈ claimedItems (es ++ [e]) := by
  intro c hc
  rw [claimedItems_concat]
  cases hchange with
  | claimed passes front free top within =>
    obtain rfl := List.mem_singleton.1 hc
    exact List.mem_append_right _ (by simp [Event.claimed?])
  | @followed before after item v s running result =>
    obtain ⟨id, -, rfl⟩ := List.mem_map.1 hc
    exact List.mem_append_left _ (h.started (.start item) (by simp [running]))
  | returned | exhausted | examined | ended | elsewhere => cases hc

/-- Every change keeps the claims ranked. -/
theorem change (h : st.Ranked p es) (hlaid : st.Laid f p) (hchange : Change f p st e st') :
    st'.Ranked p (es ++ [e]) := by
  refine ⟨h.owned.change hchange, h.sorted_change hlaid hchange, ?_, ?_, ?_⟩
  · intro c hc
    rcases hchange.mem_inFlight hc with hc | hc
    · rw [claimedItems_concat]
      exact List.mem_append_left _ (h.held c hc)
    · exact h.claims_change hchange c hc
  · intro x hx
    rw [claimedItems_concat] at hx
    rcases List.mem_append.1 hx with hx | hx
    · exact (h.bounded x hx).change hlaid hchange
    · exact h.claimed_bounds hlaid hchange (Option.mem_toList.1 hx)
  · rw [claimedItems_concat]
    refine List.pairwise_append.2 ⟨h.ordered, by cases e.claimed? <;> simp, ?_⟩
    intro x hx y hy
    -- the item that is claimed has waited in a state that the earlier one bounds
    have hbound := (h.bounded x hx).change hlaid hchange
    cases hchange with
    | @claimed passed rest t item passes front free top within =>
      obtain rfl : y = item := by simpa [Event.claimed?] using hy
      exact hbound.items y (by simp [items, OpenVisit.start])
    | returned | exhausted | followed | examined | ended | elsewhere => cases hy

end SearchState.Ranked

/-! ## Runs -/

/-- Nothing that a run discovers precedes a bound of the state that it starts in. -/
theorem Run.precedes_discovered {start st : SearchState} {es : List Event} {x : SearchItem}
    (hlaid : start.Laid f p) (hx : start.BoundedBy p x) (h : Run f p start es st) :
    ∀ y ∈ discoveredItems es, y.precedes x = .ok false := by
  have hboth : st.BoundedBy p x ∧ ∀ y ∈ discoveredItems es, y.precedes x = .ok false := by
    refine h.induct (motive := fun es st =>
      st.BoundedBy p x ∧ ∀ y ∈ discoveredItems es, y.precedes x = .ok false) hlaid
      ⟨hx, by simp [discoveredItems]⟩ ?_
    intro es st e st' hlaid ⟨hbound, hdiscovered⟩ hchange
    refine ⟨hbound.change hlaid hchange, fun y hy => ?_⟩
    rw [discoveredItems_concat] at hy
    rcases List.mem_append.1 hy with hy | hy
    · exact hdiscovered y hy
    · obtain ⟨z, hz, hlayout, -⟩ := hlaid.discovered_spec hchange hy
      have hsame : x.layout = y.layout := by rw [hlayout, hlaid.layout hz, hbound.layout]
      exact (SearchItem.precedes_eq_ok_false_iff hsame).2 (hbound.discovered hlaid hchange hy)
  exact hboth.2

namespace Engine

variable {r : SearchRequest} {s : Session} {v : Verifier} {es : List Event} {st : SearchState}

/-- Every search claims in order of credibility at any time. -/
theorem ranked_of_prepare (hprepare : prepare f r = .ok (p, s))
    (hrun : Run f p (.initial s v) es st) : st.Ranked p es := by
  refine hrun.induct (motive := fun es st => st.Ranked p es) (laid_of_prepare hprepare) ?_ ?_
  · obtain ⟨entry, -, rfl⟩ := prepare_eq_ok hprepare
    exact ⟨.initial _ v, List.pairwise_singleton _ _, by simp [SearchState.initial, Session.start],
      by simp [claimedItems], .nil⟩
  · exact fun es st e st' hlaid ih hchange => ih.change hlaid hchange

/-- **Bundles are claimed in the order of their credibility.** In every run of a search no item strictly
precedes one that was claimed before it, and nothing that is discovered later strictly precedes an item
that is being visited. -/
theorem claimed_in_order_of_credibility (hprepare : prepare f r = .ok (p, s))
    (hrun : Run f p (.initial s v) es st) :
    (claimedItems es).Pairwise (fun x y => y.precedes x = .ok false) ∧
      ∀ visit ∈ st.running, ∀ es' st', Run f p st es' st' →
        ∀ y ∈ discoveredItems es', y.precedes visit.item = .ok false := by
  have hranked := ranked_of_prepare hprepare hrun
  have hlaid := hrun.laid (laid_of_prepare hprepare)
  refine ⟨?_, ?_⟩
  · refine hranked.ordered.imp_of_mem fun {x y} hx hy hxy => ?_
    have hsame : x.layout = y.layout :=
      (hranked.bounded x hx).layout.trans (hranked.bounded y hy).layout.symm
    exact (SearchItem.precedes_eq_ok_false_iff hsame).2 hxy
  · intro visit hvisit es' st' hlater
    exact hlater.precedes_discovered hlaid (hranked.bounded _ (hranked.started visit hvisit))

/-- The whole search of the small federation, as far as its claims and answers go. -/
theorem exists_run_sample :
    ∃ es st, Run Sample.federation Sample.plan (.initial Sample.session Sample.verifier) es st ∧
      (claimedItems es).map SearchItem.bundleId = ["A", "B", "C", "Y", "X"].map Sample.document ∧
      st.session.results.map FoundResult.bundleId =
        ["A", "B", "C", "Y", "X"].map Sample.document := by
  have hplay : (SearchState.play Sample.federation Sample.plan
      (.initial Sample.session Sample.verifier) Sample.complete).any (fun r =>
        (claimedItems r.1).map SearchItem.bundleId == ["A", "B", "C", "Y", "X"].map Sample.document &&
          r.2.session.results.map FoundResult.bundleId ==
            ["A", "B", "C", "Y", "X"].map Sample.document) = true := by
    decide +kernel
  obtain ⟨⟨es, st⟩, hst, hplayed⟩ := (Option.any_eq_true _ _).1 hplay
  obtain ⟨hclaimed, hresults⟩ := Bool.and_eq_true_iff.1 hplayed
  exact ⟨es, st, Run.of_play hst, eq_of_beq hclaimed, eq_of_beq hresults⟩

/-- The small federation is claimed to its end, and what lies behind `B` comes last. -/
theorem sample_claimed_in_order_of_credibility :
    ∃ es st, Run Sample.federation Sample.plan (.initial Sample.session Sample.verifier) es st ∧
      (claimedItems es).map SearchItem.bundleId = ["A", "B", "C", "Y", "X"].map Sample.document ∧
      (claimedItems es).Pairwise (fun x y => y.precedes x = .ok false) := by
  obtain ⟨es, st, hrun, hclaimed, -⟩ := exists_run_sample
  exact ⟨es, st, hrun, hclaimed, (claimed_in_order_of_credibility Sample.prepare_request hrun).1⟩

end Engine

end ProvenanceTrail
