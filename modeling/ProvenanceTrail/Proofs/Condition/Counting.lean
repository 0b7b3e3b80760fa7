import ProvenanceTrail.Condition.Bundle
import ProvenanceTrail.Proofs.Condition.SearchTrees
import ProvenanceTrail.Proofs.Graph.Loading
import ProvenanceTrail.Proofs.Query.Connectors

/-!
# Conditions of all nodes, and counts

Whether all nodes of a bundle satisfy a condition can be asked in two ways: by a scan of the nodes that stops
at the first one that does not, and by counting the nodes that fit among all of them. The two differ in the
nodes that they look at, so they are compared for a condition that fails on none. Both are then read off from
the positions that pass (`BundlePredicate.eval_allNodes`, `Findable.count_fittingNodes`).

The size of a search is the number of ids in the answer to a query for its nodes, since the ids of a bundle
are different ones. Only the size of a search for linear paths is the number of its paths.
-/

namespace ProvenanceTrail

/-- The positions of a bundle stand for its nodes, in their order. -/
theorem Bundle.map_node_nodeIndices (b : Bundle) : b.nodeIndices.map b.node = b.nodes.toList := by
  refine List.ext_getElem (by simp [nodeIndices]) fun i _ _ => ?_
  simp [nodeIndices, node]

/-- A condition that fails on no node of a bundle is met at some positions and not at the others. -/
theorem Condition.exists_passes {b : Bundle} {c : Condition NodePredicate}
    (h : ∀ n ∈ b.nodes, ∃ holds, c.testNode n = .ok holds) :
    ∃ passes : b.NodeIx → Bool, ∀ n, c.testNode (b.node n) = .ok (passes n) := by
  have hnode (n : b.NodeIx) : ∃ holds, c.testNode (b.node n) = .ok holds :=
    h _ (Array.getElem_mem n.isLt)
  choose passes hpasses using hnode
  exact ⟨passes, hpasses⟩

/-- The negation passes where the condition does not. -/
theorem Condition.testNode_not {b : Bundle} {c : Condition NodePredicate} {passes : b.NodeIx → Bool}
    (h : ∀ n, c.testNode (b.node n) = .ok (passes n)) (n : b.NodeIx) :
    (Condition.not (some c)).testNode (b.node n) = .ok (!passes n) := by
  show (do let value ← c.testNode (b.node n); pure !value) = _
  rw [h n]
  rfl

/-! ## A scan of the nodes -/

namespace BundlePredicate

variable {v : BundleView} {c : Condition NodePredicate} {passes : v.bundle.NodeIx → Bool}

/-- A scan that never fails tells whether all nodes pass. -/
theorem allSatisfy_map (h : ∀ n, c.testNode (v.bundle.node n) = .ok (passes n))
    (ns : List v.bundle.NodeIx) : allSatisfy c (ns.map v.bundle.node) = .ok (ns.all passes) := by
  induction ns with
  | nil => rfl
  | cons n rest ih =>
    rw [List.map_cons, allSatisfy, h n, ih, List.all_cons]
    cases passes n with
    | false => rfl
    | true => rfl

/-- All nodes pass when as many pass as there are. -/
theorem eval_allNodes (h : ∀ n, c.testNode (v.bundle.node n) = .ok (passes n)) :
    eval v (.allNodes (some c)) =
      .ok (decide (v.bundle.nodeIndices.countP passes = v.bundle.nodeIndices.length)) := by
  show allSatisfy c v.bundle.nodes.toList = _
  rw [← v.bundle.map_node_nodeIndices, allSatisfy_map h]
  congr 1
  rw [Bool.eq_iff_iff, decide_eq_true_iff, List.all_eq_true, List.countP_eq_length]

/-- The negation does not hold of all nodes when one of them passes. -/
theorem eval_allNodes_not (h : ∀ n, c.testNode (v.bundle.node n) = .ok (passes n)) :
    eval v (.allNodes (some (.not (some c)))) =
      .ok (!decide (1 ≤ v.bundle.nodeIndices.countP passes)) := by
  show allSatisfy (.not (some c)) v.bundle.nodes.toList = _
  rw [← v.bundle.map_node_nodeIndices, allSatisfy_map (Condition.testNode_not h)]
  congr 1
  rw [← List.not_any_eq_all_not, Bool.not_inj_iff, Bool.eq_iff_iff, decide_eq_true_iff, List.any_eq_true,
    List.one_le_countP_iff]

end BundlePredicate

/-! ## Sizes of searches -/

namespace Subgraph

variable {b : Bundle}

/-- No node occurs twice among the distinct ones. -/
theorem nodup_distinctNodes (found : List (Subgraph b)) : (distinctNodes found).Nodup :=
  pairwise_firstOccurrences.imp fun hlt heq => absurd (heq ▸ hlt) (lt_irrefl _)

end Subgraph

namespace Findable

variable {v : BundleView} {c : Condition NodePredicate} {passes : v.bundle.NodeIx → Bool}

/-- The whole bundle counts all its nodes. -/
theorem count_wholeGraph (v : BundleView) : wholeGraph.count v = .ok v.bundle.nodeIndices.length := by
  have hwhole : wholeGraph.count v =
      .ok (Subgraph.distinctNodes [⟨v.bundle.nodeIndices, v.bundle.edgeIndices⟩]).length := rfl
  rw [hwhole, Subgraph.distinctNodes_singleton (List.nodup_finRange _)]

/-- Among all nodes, those that fit are counted once each. -/
theorem count_fittingNodes (h : ∀ n, c.testNode (v.bundle.node n) = .ok (passes n)) :
    (fittingNodes (some c) (some wholeGraph)).count v = .ok (v.bundle.nodeIndices.countP passes) := by
  have hnodup : v.bundle.nodeIndices.Nodup := List.nodup_finRange _
  have hfind : (fittingNodes (some c) (some wholeGraph)).find v =
      .ok ((v.bundle.nodeIndices.filter passes).map Subgraph.single) := by
    rw [find_fittingNodes rfl, Subgraph.distinctNodes_singleton hnodup, nodesAmong_eq_ok h]
  rw [count, hfind]
  show Except.ok (Subgraph.distinctNodes ((v.bundle.nodeIndices.filter passes).map Subgraph.single)).length = _
  rw [Subgraph.distinctNodes_map_single (hnodup.filter passes), List.countP_eq_length_filter]

/-- A size and the answer to a query for the nodes come from the same different nodes, or fail alike. -/
theorem count_eq_map_length {f : Findable} (hf : f.countsPaths = false) (v : BundleView) :
    f.count v = (BundleQuery.foundNodes v f).map List.length := by
  rw [count, BundleQuery.foundNodes, hf]
  cases f.find v with
  | error err => rfl
  | ok found => rfl

/-- The ids of the different nodes that a search finds are different. -/
theorem nodup_ids {f : Findable} {ns : List v.bundle.NodeIx} (h : BundleQuery.foundNodes v f = .ok ns) :
    (ns.map fun n => (v.bundle.node n).id).Nodup := by
  obtain ⟨found, -, rfl⟩ := exists_of_map_eq_ok h
  exact (Subgraph.nodup_distinctNodes found).map fun _ _ => Bundle.id_inj

end Findable

/-! ## Agreement -/

/-- **Quantified and counted forms agree.** Let a condition fail on no node of a bundle. Then it can be asked of
all nodes, the fitting nodes among all can be counted, and all nodes satisfy it exactly when as many fit as
there are; that all satisfy its negation is false exactly when at least one fits. A search other than one for
linear paths has as its size the number of ids that a query for its nodes gives, which are different, or both
fail with the same error. -/
theorem BundleView.quantified_iff_counted (v : BundleView) :
    (∀ c : Condition NodePredicate, (∀ n ∈ v.bundle.nodes, ∃ holds, c.testNode n = .ok holds) →
      ∃ fitting whole : Nat,
        (Findable.fittingNodes (some c) (some .wholeGraph)).count v = .ok fitting ∧
        Findable.wholeGraph.count v = .ok whole ∧
        BundlePredicate.eval v (.allNodes (some c)) = .ok (decide (fitting = whole)) ∧
        BundlePredicate.eval v (.allNodes (some (.not (some c)))) = .ok (!decide (1 ≤ fitting))) ∧
    ∀ f : Findable, f.countsPaths = false → ∃ ids : Except ConditionError (List QualifiedName),
      (BundleQuery.nodeIds f).evalView v = ids.map .nodeIds ∧ f.count v = ids.map List.length ∧
        ∀ names, ids = .ok names → names.Nodup := by
  refine ⟨fun c hc => ?_, fun f hf => ?_⟩
  · obtain ⟨passes, hpasses⟩ := Condition.exists_passes hc
    exact ⟨_, _, Findable.count_fittingNodes hpasses, Findable.count_wholeGraph v,
      BundlePredicate.eval_allNodes hpasses, BundlePredicate.eval_allNodes_not hpasses⟩
  · refine ⟨(BundleQuery.foundNodes v f).map fun ns => ns.map fun n => (v.bundle.node n).id, ?_, ?_, ?_⟩
    · show (BundleQuery.foundNodes v f).map _ = _
      cases BundleQuery.foundNodes v f with
      | error err => rfl
      | ok ns => rfl
    · rw [Findable.count_eq_map_length hf]
      cases BundleQuery.foundNodes v f with
      | error err => rfl
      | ok ns => exact congrArg Except.ok (List.length_map _).symm
    · intro names hnames
      obtain ⟨ns, hns, rfl⟩ := exists_of_map_eq_ok hnames
      exact Findable.nodup_ids hns

namespace Sample

/-- The condition to be an entity. -/
def isEntity : Condition NodePredicate := .leaf (.isKind (some .entity))

/-- The three nodes of the triangle are entities, and all of them are connected to its first one. -/
theorem triangle_quantified_counted :
    (Findable.fittingNodes (some isEntity) (some .wholeGraph)).count triangleView = .ok 3 ∧
      BundlePredicate.eval triangleView (.allNodes (some isEntity)) = .ok true ∧
      BundlePredicate.eval triangleView (.allNodes (some (.not (some isEntity)))) = .ok false ∧
      ∃ names, (BundleQuery.nodeIds (.filtered (some anyStep) none)).evalView triangleView =
        .ok (.nodeIds names) ∧ names.length = 3 ∧ names.Nodup := by
  obtain ⟨hquantified, hsizes⟩ := BundleView.quantified_iff_counted triangleView
  obtain ⟨fitting, whole, hfitting, hwhole, hall, hnot⟩ := hquantified isEntity fun n _ => ⟨_, rfl⟩
  have hthree : (Findable.fittingNodes (some isEntity) (some .wholeGraph)).count triangleView = .ok 3 := by
    decide
  obtain rfl : fitting = 3 := Except.ok.inj (hfitting.symm.trans hthree)
  obtain rfl : whole = 3 := Except.ok.inj (hwhole.symm.trans (by decide))
  obtain ⟨ids, hids, hcount, hdistinct⟩ := hsizes (.filtered (some anyStep) none) rfl
  have hreached : (Findable.filtered (some anyStep) none).count triangleView = .ok 3 := by decide
  rw [hreached] at hcount
  obtain ⟨names, rfl, hlength⟩ := exists_of_map_eq_ok hcount.symm
  exact ⟨hthree, hall, hnot, names, hids, hlength, hdistinct names rfl⟩

-- the eight linear paths of the triangle run through three nodes
example : nearbyPaths.count triangleView = .ok 8 ∧
    (BundleQuery.foundNodes triangleView nearbyPaths).map List.length = .ok 3 := by
  decide

end Sample

end ProvenanceTrail
