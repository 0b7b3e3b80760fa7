import Mathlib.Logic.Relation
import ProvenanceTrail.Proofs.Condition.Subgraphs

/-!
# Derivation paths

A derivation path follows derivations in a direction, or in both when none is given, and specializations
either way (`Bundle.LeadsOn`). The search for it walks edges in both directions and leaves the direction to
its filter, which compares the node that a step reaches with the effect of the edge.

On a loop that comparison cannot tell the directions apart, so that backwards the filter refuses the loop.
No node is lost by that, since a loop leads nowhere else: what a walk of accepted steps reaches is what
`Bundle.LeadsOn` leads to (`Bundle.exists_walkTo_derivation_iff`). Turning a path round turns its direction
round (`Bundle.leadsOn_swap`), and so the forward and the backward search are converse.
-/

namespace ProvenanceTrail

namespace Bundle

variable {b : Bundle}

/-- The second node is derived from the first: a derivation has the one as its cause and the other as its
effect. -/
def Derives (b : Bundle) (n m : b.NodeIx) : Prop :=
  ∃ e, (b.edge e).hasRelation .derivation ∧ (b.edge e).cause = n ∧ (b.edge e).effect = m

/-- A specialization joins two nodes, in either direction. -/
def Specializes (b : Bundle) (n m : b.NodeIx) : Prop :=
  ∃ e, (b.edge e).hasRelation .specialization ∧ b.Joins e n m

/-- A derivation path can go on from one node to another. -/
def LeadsOn (b : Bundle) (backward : Option Bool) (n m : b.NodeIx) : Prop :=
  (backward ≠ some true ∧ b.Derives n m) ∨ (backward ≠ some false ∧ b.Derives m n) ∨ b.Specializes n m

/-- Specialization is taken either way round. -/
theorem Specializes.symm {n m : b.NodeIx} (h : b.Specializes n m) : b.Specializes m n := by
  obtain ⟨e, hrelated, hjoins⟩ := h
  exact ⟨e, hrelated, hjoins.symm⟩

/-- Seen from its other end, a path leads in the opposite direction. -/
theorem leadsOn_swap (backward : Option Bool) :
    Function.swap (b.LeadsOn backward) = b.LeadsOn (backward.map (!·)) := by
  funext n m
  have hspecializes : b.Specializes m n ↔ b.Specializes n m := ⟨.symm, .symm⟩
  rcases backward with _ | (_ | _) <;> simp [Function.swap, LeadsOn, hspecializes, or_left_comm]

/-- What accepted walks lead to is the closure of the accepted steps. -/
theorem exists_walkTo_iff {ε : Type} {filter : Step b → Except ε Bool} {start m : b.NodeIx} :
    (∃ k, b.WalkTo filter start k m) ↔
      Relation.ReflTransGen (fun n m => ∃ e, b.Joins e n m ∧ filter (Step.along e m) = .ok true)
        start m := by
  constructor
  · rintro ⟨k, hwalk⟩
    induction hwalk with
    | start => exact .refl
    | step _ hjoins haccepted ih => exact ih.tail ⟨_, hjoins, haccepted⟩
  · intro hpath
    induction hpath with
    | refl => exact ⟨0, .start⟩
    | tail _ hstep ih =>
      obtain ⟨k, hwalk⟩ := ih
      obtain ⟨e, hjoins, haccepted⟩ := hstep
      exact ⟨k + 1, .step hwalk hjoins haccepted⟩

end Bundle

/-! ## The filter of the search -/

namespace StepPredicate

variable {b : Bundle} {e : b.EdgeIx} {n m : b.NodeIx} {backward : Option Bool}

/-- A step over an edge is tested by the relations of the edge, and by its effect where that is asked
for. -/
theorem evalEdgeToNode_along (k : RelationKind) (nodeIsEffect : Option Bool) :
    evalEdgeToNode (Step.along e m) (some (.leaf (.isRelation (some k)))) none nodeIsEffect =
      .ok ((b.edge e).hasRelation k &&
        nodeIsEffect.all fun expected => ((b.edge e).effect == m) == expected) := by
  have hchecks : evalEdgeToNode (Step.along e m) (some (.leaf (.isRelation (some k)))) none nodeIsEffect =
      if !(b.edge e).hasRelation k then .ok false
      else .ok (nodeIsEffect.all fun expected => ((b.edge e).effect == m) == expected) := by
    cases nodeIsEffect <;> rfl
  rw [hchecks]
  cases (b.edge e).hasRelation k <;> rfl

/-- The filter of a derivation path. -/
def alongDerivations (backward : Option Bool) (s : Step b) : Except ConditionError Bool :=
  (Condition.leaf (.derivationPath backward)).testStep s

/-- The filter never fails on an edge. It accepts a specialization, and a derivation when its effect is what
the step reaches or not, as the direction asks. -/
theorem alongDerivations_along :
    alongDerivations backward (Step.along e m) =
      .ok (((b.edge e).hasRelation .derivation &&
          backward.all fun back => ((b.edge e).effect == m) == !back) ||
        (b.edge e).hasRelation .specialization) := by
  have hchecks : alongDerivations backward (Step.along e m) = do
      if ← evalEdgeToNode (Step.along e m) (some (.leaf (.isRelation (some .derivation)))) none
          (backward.map (!·)) then return true
      if ← evalEdgeToNode (Step.along e m) (some (.leaf (.isRelation (some .specialization)))) none
          none then return true
      return false := rfl
  rw [hchecks, evalEdgeToNode_along, evalEdgeToNode_along, Option.all_map]
  cases (b.edge e).hasRelation .derivation <;> cases (b.edge e).hasRelation .specialization <;>
    cases backward.all fun back => ((b.edge e).effect == m) == !back <;> rfl

/-- An accepted step goes on along the path. -/
theorem leadsOn_of_accepted (hjoins : b.Joins e n m)
    (h : alongDerivations backward (Step.along e m) = .ok true) : b.LeadsOn backward n m := by
  rw [alongDerivations_along, Except.ok.injEq, Bool.or_eq_true, Bool.and_eq_true] at h
  rcases h with ⟨hderives, hdirection⟩ | hspecializes
  · -- a loop reaches its effect, and so counts as a step forward
    by_cases heffect : (b.edge e).effect = m
    · have hforward : backward ≠ some true := by
        rintro rfl
        simp [heffect] at hdirection
      have hcause : (b.edge e).cause = n := by
        rcases hjoins with ⟨hcause, -⟩ | ⟨hloop, hcause⟩
        · exact hcause
        · exact hcause.trans (heffect.symm.trans hloop)
      exact .inl ⟨hforward, e, hderives, hcause, heffect⟩
    · have hbackward : backward ≠ some false := by
        rintro rfl
        simp [heffect] at hdirection
      obtain ⟨hfrom, hcause⟩ := hjoins.resolve_left fun h => heffect h.2
      exact .inr (.inl ⟨hbackward, e, hderives, hcause, hfrom⟩)
  · exact .inr (.inr ⟨e, hspecializes, hjoins⟩)

/-- Where the path goes on to another node, a step is accepted. -/
theorem exists_accepted_of_leadsOn (h : b.LeadsOn backward n m) (hne : n ≠ m) :
    ∃ e, b.Joins e n m ∧ alongDerivations backward (Step.along e m) = .ok true := by
  simp only [alongDerivations_along, Except.ok.injEq, Bool.or_eq_true, Bool.and_eq_true]
  rcases h with ⟨hforward, e, hderives, hcause, heffect⟩ | ⟨hbackward, e, hderives, hcause, heffect⟩ |
    ⟨e, hspecializes, hjoins⟩
  · refine ⟨e, .inl ⟨hcause, heffect⟩, .inl ⟨hderives, ?_⟩⟩
    rcases backward with _ | (_ | _) <;> simp_all
  · refine ⟨e, .inr ⟨heffect, hcause⟩, .inl ⟨hderives, ?_⟩⟩
    rcases backward with _ | (_ | _) <;> simp_all
  · exact ⟨e, hjoins, .inr hspecializes⟩

end StepPredicate

/-! ## The search -/

namespace Bundle

variable {b : Bundle} {backward : Option Bool}

/-- Walks of accepted steps lead where the path leads. -/
theorem exists_walkTo_derivation_iff {start m : b.NodeIx} :
    (∃ k, b.WalkTo (StepPredicate.alongDerivations backward) start k m) ↔
      Relation.ReflTransGen (b.LeadsOn backward) start m := by
  rw [exists_walkTo_iff]
  constructor
  · refine Relation.ReflTransGen.mono (fun n m hstep => ?_) start m
    obtain ⟨e, hjoins, haccepted⟩ := hstep
    exact StepPredicate.leadsOn_of_accepted hjoins haccepted
  · refine Relation.reflTransGen_closed (fun n m hleads => ?_) start m
    by_cases hloop : n = m
    · exact hloop ▸ .refl
    · exact .single (StepPredicate.exists_accepted_of_leadsOn hleads hloop)

/-- The search along derivations succeeds and lists, each once and the start first, the nodes that the path
leads to. -/
theorem reachFiltered_derivation (b : Bundle) (backward : Option Bool) (start : b.NodeIx) :
    ∃ nodes, b.reachFiltered (StepPredicate.alongDerivations backward) start = .ok nodes ∧
      nodes.Nodup ∧ nodes.head? = some start ∧
        ∀ m, m ∈ nodes ↔ Relation.ReflTransGen (b.LeadsOn backward) start m := by
  obtain ⟨hsucceeds, hexact, -, hasked⟩ :=
    b.reachFiltered_exact (StepPredicate.alongDerivations backward) start
  have hedges (s : Step b) (h : b.Asks (StepPredicate.alongDerivations backward) start s) :
      ∃ accepted, StepPredicate.alongDerivations backward s = .ok accepted := by
    obtain ⟨-, -, e, m, -, -, -, rfl⟩ := hasked s h
    exact ⟨_, StepPredicate.alongDerivations_along⟩
  obtain ⟨nodes, hnodes⟩ := hsucceeds hedges
  obtain ⟨hhead, hnodup, hmem, -⟩ := hexact nodes hnodes
  exact ⟨nodes, hnodes, hnodup, hhead, fun m => (hmem m).trans exists_walkTo_derivation_iff⟩

end Bundle

namespace Findable

/-- The derivation path from the entry is one subgraph: what the search along derivations reaches. -/
theorem find_derivationPath (b : Bundle) (backward : Option Bool) (entry : b.NodeIx) :
    ∃ path : Subgraph b, (derivationPath backward).find ⟨b, some entry⟩ = .ok [path] ∧
      b.reachFiltered (StepPredicate.alongDerivations backward) entry = .ok path.nodes ∧
        path.nodes.Nodup := by
  obtain ⟨nodes, hnodes, hnodup, -⟩ := b.reachFiltered_derivation backward entry
  obtain ⟨steps, hsteps, rfl⟩ := exists_of_map_eq_ok hnodes
  refine ⟨Subgraph.ofSteps steps, ?_, hnodes, hnodup⟩
  have hfound : (derivationPath backward).find ⟨b, some entry⟩ =
      Bundle.collect (fun start => (b.reachSteps (StepPredicate.alongDerivations backward) start).map
        fun steps => [Subgraph.ofSteps steps]) [entry] := rfl
  rw [hfound, Bundle.collect, hsteps]
  rfl

/-- A search finds a node. -/
def Finds (f : Findable) (v : BundleView) (n : v.bundle.NodeIx) : Prop :=
  ∃ found, f.find v = .ok found ∧ n ∈ Subgraph.distinctNodes found

/-- A derivation path finds just the nodes that steps of its direction lead to. -/
theorem finds_derivationPath_iff {b : Bundle} {backward : Option Bool} {n m : b.NodeIx} :
    (derivationPath backward).Finds ⟨b, some n⟩ m ↔ Relation.ReflTransGen (b.LeadsOn backward) n m := by
  obtain ⟨path, hfind, hnodes, hnodup⟩ := find_derivationPath b backward n
  obtain ⟨nodes, hreached, -, -, hmem⟩ := b.reachFiltered_derivation backward n
  obtain rfl : path.nodes = nodes := Except.ok.inj (hnodes.symm.trans hreached)
  rw [← hmem]
  constructor
  · rintro ⟨found, hfound, hm⟩
    obtain rfl : [path] = found := Except.ok.inj (hfind.symm.trans hfound)
    rwa [Subgraph.distinctNodes_singleton hnodup] at hm
  · intro hm
    exact ⟨[path], hfind, by rwa [Subgraph.distinctNodes_singleton hnodup]⟩

/-- Turning the direction round exchanges the entry and what is found. -/
theorem finds_derivationPath_comm {b : Bundle} {backward : Option Bool} {n m : b.NodeIx} :
    (derivationPath backward).Finds ⟨b, some n⟩ m ↔
      (derivationPath (backward.map (!·))).Finds ⟨b, some m⟩ n := by
  rw [finds_derivationPath_iff, finds_derivationPath_iff, ← b.leadsOn_swap, Relation.reflTransGen_swap]

/-- **Forward and backward derivation paths are converse.** From any node the search succeeds. Forward it
finds one node from another just if backward it finds the other from the one; without a direction it finds
each from the other. Forward it finds the nodes reached by derivations from cause to effect and by
specializations either way. -/
theorem derivation_paths_converse (b : Bundle) :
    (∀ backward entry, ∃ found, (derivationPath backward).find ⟨b, some entry⟩ = .ok found) ∧
      (∀ n m, (derivationPath (some false)).Finds ⟨b, some n⟩ m ↔
        (derivationPath (some true)).Finds ⟨b, some m⟩ n) ∧
      (∀ n m, (derivationPath none).Finds ⟨b, some n⟩ m ↔ (derivationPath none).Finds ⟨b, some m⟩ n) ∧
      ∀ n m, (derivationPath (some false)).Finds ⟨b, some n⟩ m ↔
        Relation.ReflTransGen (fun x y => b.Derives x y ∨ b.Specializes x y) n m := by
  refine ⟨fun backward entry => ?_, fun n m => finds_derivationPath_comm, fun n m =>
    finds_derivationPath_comm, fun n m => ?_⟩
  · obtain ⟨path, hfind, -⟩ := find_derivationPath b backward entry
    exact ⟨[path], hfind⟩
  · have hleads : b.LeadsOn (some false) = fun x y => b.Derives x y ∨ b.Specializes x y := by
      funext x y
      simp [Bundle.LeadsOn]
    rw [finds_derivationPath_iff, hleads]

end Findable

/-- A product that is made from raw material, derived from itself as well, and known in a more general
form. -/
def Sample.processing : Bundle where
  id := ⟨"", "processing"⟩
  nodes := #[.bare ⟨"", "raw"⟩ .entity, .bare ⟨"", "product"⟩ .entity, .bare ⟨"", "general"⟩ .entity]
  edges := #[⟨0, 1, [.usage, .derivation], by decide⟩, ⟨1, 1, [.derivation, .influence], by decide⟩,
    ⟨2, 1, [.specialization], by decide⟩]
  distinct := by decide

example :
    ((Findable.derivationPath (some false)).find ⟨Sample.processing, some (2 : Fin 3)⟩).map
        (·.map fun path => path.nodes.map Fin.val) = .ok [[2, 1]] ∧
      ((Findable.derivationPath (some true)).find ⟨Sample.processing, some (2 : Fin 3)⟩).map
        (·.map fun path => path.nodes.map Fin.val) = .ok [[2, 1, 0]] := by
  decide

end ProvenanceTrail
