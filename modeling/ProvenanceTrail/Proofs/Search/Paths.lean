import Mathlib.Data.List.Chain
import ProvenanceTrail.Proofs.Search.Answers
import ProvenanceTrail.Proofs.Validity.Selection

/-!
# Credibility along a path

The path that an item carries is a summary: one flag for integrity and one for each selected check. It is
folded item by item, while other visits go on beside. Here the path itself is recovered. `IsPath` is a
list of expansions from the first item on, each reached through a connector of the one before, and every
item of a search is led to by such a path (`Engine.exists_path`). Along it the summary is the conjunction of
the verdicts on the single bundles (`IsPath.result_spec`). Nothing about runs is left in that second half:
it is an induction on the path from its end.

Outcomes are joined by the id of the check. That this is the same as joining them by position rests on the
selection, which has each id once.
-/

namespace ProvenanceTrail

variable {f : Federation} {p : SearchPlan}

/-! ## Selected checks -/

/-- No check occurs twice in the layout. -/
theorem Engine.nodup_layout {r : SearchRequest} {s : Session}
    (hprepare : Engine.prepare f r = .ok (p, s)) : p.layout.Nodup :=
  ValidityRegistry.nodup_of_select (Engine.plan_of_prepare hprepare).2.1

namespace CheckOutcome

variable {inherited own : List CheckOutcome}

/-- If no check has two outcomes, each outcome is the one that counts for its check. -/
theorem satisfiedIn_of_mem (hdistinct : (own.map CheckOutcome.check).Nodup) {o : CheckOutcome}
    (ho : o ∈ own) : satisfiedIn own o.check = o.satisfied := by
  induction own with
  | nil => cases ho
  | cons first rest ih =>
    obtain ⟨hfirst, hrest⟩ := List.nodup_cons.1 hdistinct
    rcases List.mem_cons.1 ho with rfl | ho
    · simp [satisfiedIn]
    · have hother : first.check ≠ o.check := fun h => hfirst (h ▸ List.mem_map_of_mem ho)
      have hskip : satisfiedIn (first :: rest) o.check = satisfiedIn rest o.check := by
        simp [satisfiedIn, hother]
      rw [hskip, ih hrest ho]

/-- Outcomes for the same checks in the same order are joined position by position. -/
theorem getElem?_combine (hsame : own.map CheckOutcome.check = inherited.map CheckOutcome.check)
    (hdistinct : (own.map CheckOutcome.check).Nodup) (j : Nat) :
    (combine inherited own)[j]? =
      inherited[j]?.map fun o => ⟨o.check, o.satisfied && own[j]?.any CheckOutcome.satisfied⟩ := by
  rw [combine, List.getElem?_map]
  cases hj : inherited[j]? with
  | none => rfl
  | some o =>
    have hcheck : (own.map CheckOutcome.check)[j]? = some o.check := by
      rw [hsame, List.getElem?_map, hj, Option.map_some]
    rw [List.getElem?_map] at hcheck
    obtain ⟨o', hown, heq⟩ := Option.map_eq_some_iff.1 hcheck
    rw [Option.map_some, Option.map_some, hown, ← heq,
      satisfiedIn_of_mem hdistinct (List.mem_of_getElem? hown), Option.any_some]

end CheckOutcome

/-! ## Paths -/

namespace Expansion

/-- Whether the bundle satisfies the check at a position of the selection. -/
def satisfies (x : Expansion f p) (j : Nat) : Bool := x.own[j]?.any CheckOutcome.satisfied

/-- The bundle's own outcomes are for the selected checks, in the order of the selection. -/
theorem map_check_own (x : Expansion f p) : x.own.map CheckOutcome.check = p.layout :=
  ValidityCheck.map_check_of_says
    (ValidityCheck.forall₂_says_of_runAll x.hosts x.enters x.checked)

/-- The path after a bundle is the path before it joined with the bundle's own outcomes, at each position
of the selection. -/
theorem getElem?_pathValidityChecks (x : Expansion f p) (hdistinct : p.layout.Nodup)
    (hlayout : x.item.layout = p.layout) (j : Nat) :
    x.result.pathValidityChecks[j]? =
      x.item.pathValidity[j]?.map fun o => ⟨o.check, o.satisfied && x.satisfies j⟩ := by
  have hown := x.map_check_own
  exact CheckOutcome.getElem?_combine (hown.trans hlayout.symm) (hown ▸ hdistinct) j

variable {start st st' : SearchState} {es es' : List Event} {first : SearchItem}
  {path : List (Expansion f p)} {x : Expansion f p}

/-- A path of expansions that were carried out: the first one is that of the first item, and each further
one that of an item which a connector of the bundle before it leads to. -/
structure IsPath (start : SearchState) (es : List Event) (st : SearchState) (first : SearchItem)
    (path : List (Expansion f p)) : Prop where
  performed : ∀ x ∈ path, x.Performed start es st
  starts : ∀ x ∈ path.head?, x.item = first
  leads : path.IsChain fun x y => x.Names y.item.bundleId ∧ y.item ∈ x.children

/-- Where a path leads to: to the first item if it is empty, and else to the items that the connectors of
its last bundle lead to. -/
def LeadsTo (first : SearchItem) (path : List (Expansion f p)) (y : SearchItem) : Prop :=
  path = [] ∧ y = first ∨ ∃ x, path.getLast? = some x ∧ y ∈ x.children

namespace IsPath

/-- A path stays one in a longer run. -/
theorem append (h : IsPath start es st first path) (later : Run f p st es' st') :
    IsPath start (es ++ es') st' first path :=
  ⟨fun x hx => (h.performed x hx).append later, h.starts, h.leads⟩

/-- A path goes on with an expansion that it leads to. -/
theorem concat (h : IsPath start es st first path) (hleads : LeadsTo first path x.item)
    (hx : x.Performed start es st) : IsPath start es st first (path ++ [x]) := by
  refine ⟨?_, ?_, ?_⟩
  · intro y hy
    rcases List.mem_append.1 hy with hy | hy
    · exact h.performed y hy
    · obtain rfl := List.mem_singleton.1 hy
      exact hx
  · rcases hleads with ⟨rfl, hfirst⟩ | ⟨z, hz, -⟩
    · simpa using hfirst
    · cases path with
      | nil => cases hz
      | cons y rest => exact h.starts
  · refine h.leads.append (.singleton x) fun z hz y hy => ?_
    obtain rfl : x = y := by simpa using hy
    rcases hleads with ⟨rfl, -⟩ | ⟨z', hz', hchild⟩
    · cases hz
    · obtain rfl : z' = z := Option.some.inj (hz'.symm.trans hz)
      exact ⟨(z'.child_spec hchild).2.1, hchild⟩

/-- At the end of a path the credibility is the conjunction of the verdicts on all bundles of the path. -/
theorem result_spec {bundle entry : QualifiedName} (hdistinct : p.layout.Nodup)
    (h : IsPath start es st (.seed bundle entry p.layout) (path ++ [x])) :
    x.item.layout = p.layout ∧ x.result.pathIntegrity = (path ++ [x]).all Expansion.trusted ∧
      ∀ j, x.result.pathValidityChecks[j]? =
        p.checks[j]?.map fun c => CheckOutcome.mk c.id ((path ++ [x]).all fun y => y.satisfies j) := by
  induction path using List.reverseRecOn generalizing x with
  | nil =>
    have hitem : x.item = .seed bundle entry p.layout := h.starts x (by simp)
    have hlayout : x.item.layout = p.layout := by rw [hitem, SearchItem.layout_seed]
    refine ⟨hlayout, ?_, fun j => ?_⟩
    · simp [result, hitem, SearchItem.seed]
    · rw [x.getElem?_pathValidityChecks hdistinct hlayout, hitem]
      simp [SearchItem.seed, SearchPlan.layout, Function.comp_def]
  | append_singleton path z ih =>
    -- the item inherits what the bundle before it has established
    obtain ⟨hlayout, hintegrity, hvalidity⟩ :=
      ih ⟨fun y hy => h.performed y (List.mem_append_left _ hy), fun y hy => h.starts y (by
        cases path <;> simpa using hy), h.leads.left_of_append⟩
    have hchild : x.item ∈ z.children :=
      ((List.isChain_append.1 h.leads).2.2 z (by simp) x (by simp)).2
    obtain ⟨-, -, hpath, hchecks⟩ := z.child_spec hchild
    have hsame : x.item.layout = p.layout := by
      rw [SearchItem.layout, hchecks, ← hlayout]
      exact CheckOutcome.map_check_combine _ _
    refine ⟨hsame, ?_, fun j => ?_⟩
    · show (x.item.pathIntegrity && x.trusted) = _
      rw [List.all_append, ← hintegrity, hpath]
      simp
    · rw [x.getElem?_pathValidityChecks hdistinct hsame, hchecks, hvalidity, Option.map_map]
      simp [Function.comp_def, Bool.and_assoc]

end IsPath

end Expansion

/-! ## Paths in a run -/

namespace Run

variable {start st : SearchState} {es : List Event}

/-- The items that wait or are being visited, and those that were claimed, have come up in the search. -/
theorem items_subset_createdItems (hlaid : start.Laid f p) (hstart : start.running = [])
    (h : Run f p start es st) :
    st.items ⊆ createdItems start.session es ∧ claimedItems es ⊆ createdItems start.session es := by
  refine h.induct (motive := fun es st =>
    st.items ⊆ createdItems start.session es ∧ claimedItems es ⊆ createdItems start.session es)
    hlaid ⟨?_, by simp [claimedItems]⟩ ?_
  · intro y hy
    rw [SearchState.items, hstart, List.map_nil, List.append_nil] at hy
    exact List.mem_append_left _ hy
  · rintro es st e st' hlaid ⟨hitems, hclaimed⟩ hchange
    have hitems' : st'.items ⊆ createdItems start.session (es ++ [e]) := fun y hy =>
      mem_createdItems_concat.2 ((hlaid.mem_items hchange hy).imp_left fun hy => hitems hy)
    refine ⟨hitems', fun y hy => ?_⟩
    rw [claimedItems_concat] at hy
    rcases List.mem_append.1 hy with hy | hy
    · exact mem_createdItems_concat.2 (.inl (hclaimed hy))
    · -- an item that is claimed is being visited then
      refine hitems' (List.mem_append_right _ ?_)
      cases hchange with
      | claimed passes front free top within =>
        obtain rfl : y = _ := by simpa [Event.claimed?] using hy
        simp [OpenVisit.start]
      | returned | exhausted | followed | examined | ended | elsewhere => simp [Event.claimed?] at hy

/-- A path leads to every item that comes up in a search. -/
theorem exists_path {first : SearchItem} (hlaid : start.Laid f p) (hstart : start.running = [])
    (hfirst : start.session.frontier.items = [first]) (h : Run f p start es st) :
    ∀ y ∈ createdItems start.session es, ∃ path : List (Expansion f p),
      Expansion.IsPath start es st first path ∧ Expansion.LeadsTo first path y := by
  induction h with
  | nil =>
    intro y hy
    obtain rfl : y = first := by simpa [createdItems, discoveredItems, hfirst] using hy
    exact ⟨[], ⟨by simp, by simp, .nil⟩, .inl ⟨rfl, rfl⟩⟩
  | @step es st st' m e run hmove ih =>
    intro y hy
    have later : Run f p st [e] st' := .step .nil hmove
    rcases mem_createdItems_concat.1 hy with hy | hy
    · obtain ⟨path, hpath, hleads⟩ := ih y hy
      exact ⟨path, hpath.append later, hleads⟩
    · have hlaid' := run.laid hlaid
      cases SearchState.move_change hlaid'.fits hmove with
      | claimed | returned | exhausted | followed | examined | elsewhere => cases hy
      | @ended before after item version outcome running =>
        rcases outcome with e | (target | ⟨result, found, children⟩)
        · cases hy
        · cases hy
        · -- the path to the item of the visit goes on through the bundle that was searched
          have hitem : item ∈ st.items :=
            List.mem_append_right _ (by rw [running]; simp)
          obtain ⟨path, hpath, hleads⟩ := ih item ((run.items_subset_createdItems hlaid hstart).1 hitem)
          obtain ⟨x, hx, rfl, -, hvisit⟩ :=
            (run.append later).exists_expansion_of_ended hlaid hstart
              (List.mem_append_right _ (List.mem_singleton_self _))
          refine ⟨path ++ [x], (hpath.append later).concat hleads hx, .inr ⟨x, by simp, ?_⟩⟩
          rwa [(Visit.searched.inj hvisit).2.2]

end Run

namespace Engine

variable {r : SearchRequest} {s : Session} {v : Verifier} {es : List Event} {st : SearchState}

/-- **The credibility of an answer is the conjunction along a path to it.** For every answer of a run there
is a path of expansions from the start bundle, each reached through a connector discovered in the one
before it, that ends with the answer. Its path integrity says whether all bundles on the path are
trusted, and at each position of the selection its path outcome says whether all of them satisfy the check. In
particular the bundle itself is trusted if the path is, and satisfies what the path satisfies. -/
theorem credible_along_path (hprepare : prepare f r = .ok (p, s))
    (hrun : Run f p (.initial s v) es st) :
    ∀ a ∈ st.session.results,
      (∃ entry, r.startNodeId = some entry ∧ ∃ path : List (Expansion f p),
        Expansion.IsPath (.initial s v) es st (.seed r.bundleId entry p.layout) path ∧
        path.getLast?.map Expansion.result = some a ∧
        a.pathIntegrity = path.all Expansion.trusted ∧
        ∀ j, a.pathValidityChecks[j]? =
          p.checks[j]?.map fun c => CheckOutcome.mk c.id (path.all fun x => x.satisfies j)) ∧
      (a.pathIntegrity = true → a.integrity = true) ∧
      ∀ (j : Nat) (o : CheckOutcome), a.pathValidityChecks[j]? = some o → o.satisfied = true →
        ∃ own, a.validityChecks[j]? = some own ∧ own.check = o.check ∧ own.satisfied = true := by
  intro a ha
  have hlaid := laid_of_prepare (v := v) hprepare
  have hdistinct := nodup_layout hprepare
  obtain ⟨entry, hentry, hfirst, -, hresults⟩ := initial_of_prepare hprepare
  obtain ⟨x, hx, rfl⟩ := hrun.exists_expansion_of_mem_results hlaid rfl hresults ha
  have hcreated := (hrun.items_subset_createdItems hlaid rfl).2
    (mem_claimedItems_of_expands hprepare hrun hx.expands)
  obtain ⟨path, hpath, hleads⟩ := hrun.exists_path hlaid rfl hfirst _ hcreated
  have hwhole := hpath.concat hleads hx
  obtain ⟨hlayout, hintegrity, hvalidity⟩ := hwhole.result_spec hdistinct
  refine ⟨⟨entry, hentry, path ++ [x], hwhole, by simp, hintegrity, hvalidity⟩, ?_, ?_⟩
  · exact fun h => (Bool.and_eq_true_iff.1 h).2
  · intro j o ho hsatisfied
    rw [x.getElem?_pathValidityChecks hdistinct hlayout] at ho
    obtain ⟨inherited, hinherited, rfl⟩ := Option.map_eq_some_iff.1 ho
    obtain ⟨own, hown, hsat⟩ :=
      (Option.any_eq_true _ _).1 (Bool.and_eq_true_iff.1 hsatisfied).2
    refine ⟨own, hown, ?_, hsat⟩
    -- the two lists have the checks of the selection in the same order
    have hsame : (x.own.map CheckOutcome.check)[j]? =
        (x.item.pathValidity.map CheckOutcome.check)[j]? := by
      rw [x.map_check_own]
      exact congrArg (·[j]?) hlayout.symm
    rw [List.getElem?_map, List.getElem?_map, hown, hinherited] at hsame
    exact Option.some.inj hsame

/-- In the small federation every answer has its path, also those that lie behind `B`. -/
theorem sample_credible_along_path :
    ∃ es st, Run Sample.federation Sample.plan (.initial Sample.session Sample.verifier) es st ∧
      st.session.results.map FoundResult.bundleId =
        ["A", "B", "C", "Y", "X"].map Sample.document ∧
      ∀ a ∈ st.session.results, ∃ path : List (Expansion Sample.federation Sample.plan),
        path.getLast?.map Expansion.result = some a ∧
        a.pathIntegrity = path.all Expansion.trusted ∧
        a.pathValidityChecks[0]? = some ⟨"NO_AGENT", path.all fun x => x.satisfies 0⟩ := by
  obtain ⟨es, st, hrun, -, hresults⟩ := exists_run_sample
  refine ⟨es, st, hrun, hresults, fun a ha => ?_⟩
  obtain ⟨⟨entry, -, path, -, hlast, hintegrity, hvalidity⟩, -⟩ :=
    credible_along_path Sample.prepare_request hrun a ha
  exact ⟨path, hlast, hintegrity, hvalidity 0⟩

end Engine

end ProvenanceTrail
