import Mathlib.Data.List.Nodup
import ProvenanceTrail.Graph.Reach

/-!
# Steps over edges

The table of the edges at an end lists, for each node, the edges that have this end there, in their order
(`EdgeTable.row_ofEdges`). So a step can be made over an edge in both directions (`Bundle.mem_stepsFrom_iff`).
A loop stands twice among the steps from its node, and nothing else does, so that the steps to other nodes
have an order (`Bundle.idxOf_lt_idxOf`).

What a search asks a test is told by a test that fails on one argument only (`failingAt`): the search asks
about the argument if it notices the failure.
-/

namespace ProvenanceTrail

/-! ## Tests that fail on one argument -/

section Probing

variable {α ε : Type} [DecidableEq α] {test : α → Except ε Bool} {a x : α}

/-- A test with a failure of its own on one argument. -/
def failingAt (test : α → Except ε Bool) (a : α) : α → Except (Option ε) Bool :=
  fun x => if x = a then .error none else (test x).mapError some

/-- A test made to fail somewhere passes only what the test passes. -/
theorem failingAt_eq_ok {passed : Bool} (h : failingAt test a x = .ok passed) : test x = .ok passed := by
  rw [failingAt] at h
  split at h
  · cases h
  · cases htest : test x with
    | error err => simp [htest, Except.mapError] at h
    | ok verdict => simpa [htest, Except.mapError] using h

/-- A test made to fail somewhere fails in that way just there. -/
theorem failingAt_eq_error_none_iff : failingAt test a x = .error none ↔ x = a := by
  rw [failingAt]
  split
  · simp_all
  · rename_i hne
    cases test x <;> simp [Except.mapError, hne]

end Probing

/-! ## Edges at a node -/

namespace Bundle

/-- The edges of which a node is the cause, in the order of the bundle. -/
theorem edgesAsCause_eq (b : Bundle) (n : b.NodeIx) :
    b.edgesAsCause n = b.edgeIndices.filter fun e => (b.edge e).cause == n := by
  rw [edgesAsCause, b.asCause_eq, EdgeTable.row_ofEdges]
  rfl

/-- The edges of which a node is the effect, in the order of the bundle. -/
theorem edgesAsEffect_eq (b : Bundle) (n : b.NodeIx) :
    b.edgesAsEffect n = b.edgeIndices.filter fun e => (b.edge e).effect == n := by
  rw [edgesAsEffect, b.asEffect_eq, EdgeTable.row_ofEdges]
  rfl

/-! ## Steps from a node -/

variable {b : Bundle} {n m : b.NodeIx} {e : b.EdgeIx}

/-- An edge joins two nodes when one is its cause and the other its effect. -/
def Joins (b : Bundle) (e : b.EdgeIx) (n m : b.NodeIx) : Prop :=
  ((b.edge e).cause = n ∧ (b.edge e).effect = m) ∨ ((b.edge e).effect = n ∧ (b.edge e).cause = m)

/-- An edge joins its ends either way round. -/
theorem Joins.symm (h : b.Joins e n m) : b.Joins e m n := by
  rcases h with ⟨hcause, heffect⟩ | ⟨heffect, hcause⟩
  · exact .inr ⟨heffect, hcause⟩
  · exact .inl ⟨hcause, heffect⟩

/-- The steps from a node go over the edges that join it, to the nodes at their other ends. -/
theorem mem_stepsFrom_iff : (e, m) ∈ b.stepsFrom n ↔ b.Joins e n m := by
  simp [stepsFrom, edgesAsCause_eq, edgesAsEffect_eq, edgeIndices, Joins]

/-- The steps that leave a node are pairwise different. -/
theorem nodup_filter_stepsFrom : ((b.stepsFrom n).filter fun s => decide (s.2 ≠ n)).Nodup := by
  have hedges : b.edgeIndices.Nodup := List.nodup_finRange _
  have hmap (f : b.EdgeIx → b.NodeIx) (p : b.EdgeIx → Bool) :
      ((b.edgeIndices.filter p).map fun e => (e, f e)).Nodup :=
    (hedges.filter p).map fun _ _ h => (Prod.mk.inj h).1
  rw [stepsFrom, edgesAsCause_eq, edgesAsEffect_eq, List.filter_append]
  refine List.nodup_append.2 ⟨(hmap _ _).filter _, (hmap _ _).filter _, ?_⟩
  rintro ⟨e, m⟩ hcause ⟨e', m'⟩ heffect heq
  obtain ⟨rfl, rfl⟩ := Prod.mk.inj heq
  -- an edge of which the node is both cause and effect leads back to it
  simp only [List.mem_filter, List.mem_map, beq_iff_eq, Prod.mk.injEq, decide_eq_true_eq]
    at hcause heffect
  obtain ⟨⟨e₁, -, rfl, hleads⟩, haway⟩ := hcause
  obtain ⟨⟨e₂, ⟨-, hends⟩, rfl, -⟩, -⟩ := heffect
  exact haway (hleads.symm.trans hends)

/-- An element that occurs once stands behind those that occur before it. -/
theorem idxOf_lt_idxOf_of_sublist {α : Type} [BEq α] [LawfulBEq α] {x y : α} {l : List α}
    (h : [x, y].Sublist l) (honce : l.count y ≤ 1) : l.idxOf x < l.idxOf y := by
  induction l with
  | nil => cases h
  | cons a l ih =>
    have hy : y ∈ l := by
      cases h with
      | cons _ h => exact h.subset (by simp)
      | cons_cons _ h => exact h.subset (by simp)
    have hay : a ≠ y := by
      rintro rfl
      have := List.count_pos_iff.2 hy
      rw [List.count_cons_self] at honce
      omega
    rw [List.count_cons_of_ne hay] at honce
    rw [List.idxOf_cons_ne _ hay]
    cases h with
    | cons _ h =>
      have hlt := ih h honce
      rw [List.idxOf_cons]
      cases a == x with
      | true => exact Nat.succ_pos _
      | false => exact Nat.succ_lt_succ hlt
    | cons_cons _ h =>
      rw [List.idxOf_cons_self]
      omega

/-- Of two steps that leave a node, the one that is listed first has the smaller position. -/
theorem idxOf_lt_idxOf {s t : b.EdgeIx × b.NodeIx} (h : [s, t].Sublist (b.stepsFrom n))
    (ht : t.2 ≠ n) : (b.stepsFrom n).idxOf s < (b.stepsFrom n).idxOf t := by
  refine idxOf_lt_idxOf_of_sublist h ?_
  have hcount := List.nodup_iff_count_le_one.1 (nodup_filter_stepsFrom (b := b) (n := n)) t
  rwa [List.count_filter (by simpa using ht)] at hcount

end Bundle

/-- A cycle of three nodes, with a second edge along one side and a loop at the last node. -/
def Sample.triangle : Bundle where
  id := ⟨"", "triangle"⟩
  nodes := #[.bare ⟨"", "a"⟩ .entity, .bare ⟨"", "b"⟩ .entity, .bare ⟨"", "c"⟩ .entity]
  edges := #[⟨0, 1, [.communication], by decide⟩, ⟨0, 1, [.usage], by decide⟩,
    ⟨1, 2, [.communication], by decide⟩, ⟨2, 0, [.communication], by decide⟩, ⟨2, 2, [.usage], by decide⟩]
  distinct := by decide

end ProvenanceTrail
