import ProvenanceTrail.Proofs.Search.Paths

/-!
# One layout of checks

Items are compared position by position, which makes sense only if they carry outcomes for the same checks
in the same order. A frontier refuses other items, and two items that differ cannot be compared; a search
would go on without noticing. It never comes to that. The selection fixes the checks once, in the order in
which the request names them (`ValidityRegistry.map_id_of_select`), the first item carries one outcome for
each, and a path is extended by looking up the outcomes of a bundle for the checks that the path has, so
that an item always carries what the item before it carried (`Tracked.layout`).
-/

namespace ProvenanceTrail

variable {f : Federation} {p : SearchPlan}

namespace Engine

/-- A request is never refused because its first item does not fit. -/
theorem prepare_ne_layout (f : Federation) (r : SearchRequest) (e : LayoutError) :
    prepare f r ≠ .error (.layout e) := by
  intro h
  unfold prepare at h
  split at h
  · cases h
  · split at h
    · cases h
    · split at h
      · cases h
      · simp only [Frontier.push_seed] at h
        cases h

variable {r : SearchRequest} {s : Session} {v : Verifier} {es : List Event} {st : SearchState}

/-- The checks of a plan are those that the request asks for, each at its first occurrence. -/
theorem layout_of_prepare (hprepare : prepare f r = .ok (p, s)) :
    p.layout = r.validityChecks.eraseDups :=
  ValidityRegistry.map_id_of_select (plan_of_prepare hprepare).2.1

/-- **The layout of checks never breaks.** A selection fails exactly when an id is not registered, and names
the first such id; else it has the registered checks of the ids, each at its first occurrence. A search
starts with an item that fits, and in every state that it reaches all items carry outcomes for the selected
checks in their order. So a frontier of the search takes in every item that comes up and every one that a
visit is about to bring, whatever waits there, and any two items can be compared. The answers list these
checks in this order, both of the bundle and of the path to it. -/
theorem layout_never_breaks (hprepare : prepare f r = .ok (p, s))
    (hrun : Run f p (.initial s v) es st) :
    (∀ (registry : ValidityRegistry) (ids : List String),
      ((∃ e, registry.select ids = .error e) ↔ ∃ id ∈ ids, id ∉ registry.ids) ∧
      (∀ e, registry.select ids = .error e →
        ids.find? (fun id => decide (id ∉ registry.ids)) = some e.id) ∧
      ∀ checks, registry.select ids = .ok checks →
        checks.map ValidityCheck.id = ids.eraseDups ∧
          ∀ c ∈ checks, registry.find? c.id = some c) ∧
      (∀ request e, prepare f request ≠ .error (.layout e)) ∧
      (∀ y ∈ createdItems s es, y.layout = r.validityChecks.eraseDups) ∧
      (∀ y ∈ st.session.frontier.items, y.layout = r.validityChecks.eraseDups) ∧
      (∀ c ∈ st.session.inFlight, c.2.layout = r.validityChecks.eraseDups) ∧
      (∀ y, (y ∈ createdItems s es ∨ ∃ visit ∈ st.running, ∃ outcome,
          visit.stage = .settled outcome ∧ y ∈ Visit.children outcome) →
        ∀ items, Frontier.push ⟨st.session.frontier.checks, items⟩ y =
          .ok ⟨st.session.frontier.checks, Frontier.insert y items⟩) ∧
      (∀ x ∈ createdItems s es, ∀ y ∈ createdItems s es, x.compare y = .ok (x.order y)) ∧
      ∀ a ∈ st.session.results,
        a.validityChecks.map CheckOutcome.check = r.validityChecks.eraseDups ∧
          a.pathValidityChecks.map CheckOutcome.check = r.validityChecks.eraseDups := by
  have hstart := laid_of_prepare (v := v) hprepare
  have hlaid := hrun.laid hstart
  have htracked := tracked_of_prepare hprepare hrun
  have hranked := ranked_of_prepare hprepare hrun
  obtain ⟨entry, -, -, -, hresults⟩ := initial_of_prepare hprepare
  rw [← layout_of_prepare hprepare]
  refine ⟨fun registry ids => ⟨ValidityRegistry.exists_select_eq_error_iff,
      fun e => ValidityRegistry.select_eq_error_iff.1, fun checks h =>
        ⟨ValidityRegistry.map_id_of_select h, ValidityRegistry.find?_of_mem_selectAfter (by simp) h⟩⟩,
    prepare_ne_layout f, htracked.layout, hlaid.waiting, ?_, ?_, ?_, ?_⟩
  · exact fun c hc => (hranked.bounded c.2 (hranked.held c hc)).layout
  · intro y hy items
    refine Frontier.push_eq_ok ?_
    rw [hlaid.checks]
    rcases hy with hy | ⟨visit, hvisit, outcome, hstage, hchild⟩
    · exact htracked.layout y hy
    · obtain ⟨item, version, stage⟩ := visit
      obtain rfl : stage = .settled outcome := hstage
      rw [((hlaid.founded _ hvisit).child_spec hchild).1]
      exact hlaid.running _ hvisit
  · intro x hx y hy
    exact SearchItem.compare_eq_ok ((htracked.layout x hx).trans (htracked.layout y hy).symm)
  · intro a ha
    obtain ⟨x, hx, rfl⟩ := hrun.exists_expansion_of_mem_results hstart rfl hresults ha
    refine ⟨x.map_check_own, ?_⟩
    -- the path keeps the checks of the item, whatever the bundle's own outcomes are
    refine (CheckOutcome.map_check_combine x.item.pathValidity x.own).trans ?_
    exact (hranked.bounded x.item (mem_claimedItems_of_expands hprepare hrun hx.expands)).layout

end Engine

namespace Sample

def allEntities : ValidityCheck := ⟨"ALL_ENTITIES", allNodes "IsKind" "Entity"⟩

/-- The small federation with a second check, which comes first among the registered ones. -/
def twoChecks : Federation := { federation with validity := federation.validity.register allEntities }

/-- A request that names a check twice. -/
def repeating : SearchRequest :=
  (SearchRequest.starting (document "C") (node "toC") .testFits
    (allNodes "IsKind" "Entity")).withValidityChecks ["NO_AGENT", "ALL_ENTITIES", "NO_AGENT"]

def repeatingPlan : SearchPlan := { plan with checks := [noAgent, allEntities] }

def repeatingSession : Session :=
  .start ⟨["NO_AGENT", "ALL_ENTITIES"],
    [.seed (document "C") (node "toC") ["NO_AGENT", "ALL_ENTITIES"]]⟩

theorem prepare_repeating :
    Engine.prepare twoChecks repeating = .ok (repeatingPlan, repeatingSession) := by
  with_unfolding_all rfl

end Sample

/-- The answer lists the two checks in the order in which the request names them. -/
theorem Engine.sample_layout_never_breaks :
    ∃ es st, Run Sample.twoChecks Sample.repeatingPlan
        (.initial Sample.repeatingSession Sample.verifier) es st ∧
      st.session.results.map FoundResult.bundleId = [Sample.document "C"] ∧
      ∀ a ∈ st.session.results,
        a.validityChecks.map CheckOutcome.check = ["NO_AGENT", "ALL_ENTITIES"] ∧
          a.pathValidityChecks.map CheckOutcome.check = ["NO_AGENT", "ALL_ENTITIES"] := by
  have hplay : (SearchState.play Sample.twoChecks Sample.repeatingPlan
      (.initial Sample.repeatingSession Sample.verifier) ([.claim] ++ Sample.visit 0)).any (fun r =>
        r.2.session.results.map FoundResult.bundleId == [Sample.document "C"]) = true := by
    decide +kernel
  obtain ⟨⟨es, st⟩, hst, hbundles⟩ := (Option.any_eq_true _ _).1 hplay
  have hrun := Run.of_play hst
  obtain ⟨-, -, -, -, -, -, -, hchecks⟩ := layout_never_breaks Sample.prepare_repeating hrun
  exact ⟨es, st, hrun, eq_of_beq hbundles, hchecks⟩

end ProvenanceTrail
