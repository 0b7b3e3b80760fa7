import Mathlib.Data.Fin.Basic
import Mathlib.Data.List.FinRange
import Mathlib.Tactic.MkIffOfInductiveProp
import ProvenanceTrail.Graph.Connector
import ProvenanceTrail.Proofs.Graph.Steps

/-!
# The general form of a connector

A forward connector is looked up by the linear paths of two steps from it: the second step has to lead over
an edge of specialization to its cause, which has to be a forward connector. A step from a node to the effect
of an edge leads to the edge's cause only over a loop, and a loop leads to no new node. So what passes are
the edges in which the node is the effect and whose cause is another forward connector
(`Bundle.Generalizes`), in their order, and the first of them decides (`Bundle.GeneralForm`).
-/

namespace ProvenanceTrail

namespace Bundle

variable {b : Bundle} {n : b.NodeIx}

/-- An edge leads to a more general form of a node: by it the node specializes a forward connector other than
itself. -/
@[mk_iff]
structure Generalizes (b : Bundle) (e : b.EdgeIx) (n : b.NodeIx) : Prop where
  effect : (b.edge e).effect = n
  specialization : .specialization ∈ (b.edge e).relations
  other : (b.edge e).cause ≠ n
  forward : b.isConnector (b.edge e).cause (some .forward)

instance (e : b.EdgeIx) : Decidable (b.Generalizes e n) := decidable_of_iff' _ (generalizes_iff b e n)

/-- The general form of a node. What is no forward connector is its own; of the edges to more general forms
of a forward connector the first decides, and without such an edge it is its own. -/
inductive GeneralForm (b : Bundle) (n : b.NodeIx) : b.NodeIx → Prop
  | other : ¬ b.isConnector n (some .forward) → GeneralForm b n n
  | first {e : b.EdgeIx} : b.isConnector n (some .forward) → b.Generalizes e n →
      (∀ e' < e, ¬ b.Generalizes e' n) → GeneralForm b n (b.edge e).cause
  | own : b.isConnector n (some .forward) → (∀ e, ¬ b.Generalizes e n) → GeneralForm b n n

/-! ## Paths of two steps -/

/-- Where each element gives one result or none, the results are those of some elements. -/
theorem collect_eq_ok_map {α β ε : Type} {f : α → Except ε (List β)} {p : α → Bool} {g : α → β}
    {as : List α} (h : ∀ a ∈ as, f a = .ok (if p a then [g a] else [])) :
    collect f as = .ok ((as.filter p).map g) := by
  induction as with
  | nil => rfl
  | cons a as ih =>
    obtain ⟨ha, has⟩ := List.forall_mem_cons.1 h
    rw [collect, ha]
    simp only [ih has]
    cases hp : p a <;> simp [hp]

/-- The second step of the search for a general form: to a new node, over an edge that passes. -/
def leadsOn (b : Bundle) (n : b.NodeIx) (s : b.EdgeIx × b.NodeIx) : Bool :=
  s.2 ≠ n && ((b.edge s.1).hasRelation .specialization && (b.edge s.1).cause == s.2 &&
    b.isConnector s.2 (some .forward))

/-- One step is a path if it leads on, and none otherwise. -/
theorem pathsThrough_isGeneralization (s : b.EdgeIx × b.NodeIx) :
    b.pathsThrough b.isGeneralization 1 [n] (Step.along s.1 s.2) =
      .ok (if b.leadsOn n s then [[Step.along s.1 s.2]] else []) := by
  by_cases hnew : s.2 = n
  · have hold : (Step.along s.1 s.2).node ∈ [n] := List.mem_singleton.2 hnew
    rw [show b.pathsThrough b.isGeneralization 1 [n] (Step.along s.1 s.2) = .ok [] from if_pos hold]
    simp [leadsOn, hnew]
  · have hfresh : (Step.along s.1 s.2).node ∉ [n] := mt List.mem_singleton.1 hnew
    have hpasses : b.isGeneralization [n].length (Step.along s.1 s.2) = .ok (b.leadsOn n s) := by
      simp [isGeneralization, Step.along, leadsOn, hnew]
    rw [show b.pathsThrough b.isGeneralization 1 [n] (Step.along s.1 s.2) = _ from if_neg hfresh, hpasses]
    cases b.leadsOn n s <;> rfl

/-- The search finds a path for each step that leads on. -/
theorem linearPaths_isGeneralization (b : Bundle) (n : b.NodeIx) :
    b.linearPaths b.isGeneralization 2 n =
      .ok (((b.stepsFrom n).filter (b.leadsOn n)).map fun s => [Step.start n, Step.along s.1 s.2]) := by
  have hcollect : collect (fun s => b.pathsThrough b.isGeneralization 1 [n] (Step.along s.1 s.2))
      (b.stepsFrom n) =
        .ok (((b.stepsFrom n).filter (b.leadsOn n)).map fun s => [Step.along s.1 s.2]) :=
    collect_eq_ok_map fun s _ => pathsThrough_isGeneralization s
  have hstart : b.isGeneralization ([] : List b.NodeIx).length (Step.start n) = .ok true := rfl
  rw [linearPaths, show b.pathsThrough b.isGeneralization 2 [] (Step.start n) = _ from
    if_neg List.not_mem_nil, hstart]
  simp only [Nat.one_ne_zero, if_false, Step.start, hcollect, List.map_map, Function.comp_def]

/-! ## The edges to more general forms -/

/-- A step to the effect of an edge would have to lead to its cause, which is the node itself. -/
theorem leadsOn_effect {e : b.EdgeIx} (h : (b.edge e).cause = n) :
    ¬ b.leadsOn n (e, (b.edge e).effect) := by
  simp only [leadsOn, h, Bool.and_eq_true, decide_eq_true_eq, beq_iff_eq]
  rintro ⟨hnew, ⟨-, hloop⟩, -⟩
  exact hnew hloop.symm

/-- A step to the cause of an edge leads on just if the edge generalizes. -/
theorem leadsOn_cause_iff {e : b.EdgeIx} (h : (b.edge e).effect = n) :
    b.leadsOn n (e, (b.edge e).cause) ↔ b.Generalizes e n := by
  simp only [leadsOn, Edge.hasRelation, Bool.and_eq_true, decide_eq_true_eq, beq_self_eq_true, and_true,
    List.contains_iff_mem]
  exact ⟨fun ⟨hother, hspecial, hforward⟩ => ⟨h, hspecial, hother, hforward⟩,
    fun ⟨_, hspecial, hother, hforward⟩ => ⟨hother, hspecial, hforward⟩⟩

/-- The steps that lead on are those over the edges to more general forms, in their order. -/
theorem filter_leadsOn (b : Bundle) (n : b.NodeIx) :
    (b.stepsFrom n).filter (b.leadsOn n) =
      (b.edgeIndices.filter fun e => b.Generalizes e n).map fun e => (e, (b.edge e).cause) := by
  -- The steps over edges with the node as cause are listed first, and none of them leads on.
  have hcause : (b.edgesAsCause n).filter (fun e => b.leadsOn n (e, (b.edge e).effect)) = [] := by
    refine List.filter_eq_nil_iff.2 fun e he => leadsOn_effect ?_
    rw [edgesAsCause_eq, List.mem_filter, beq_iff_eq] at he
    exact he.2
  have heffect : (b.edgesAsEffect n).filter (fun e => b.leadsOn n (e, (b.edge e).cause)) =
      b.edgeIndices.filter fun e => b.Generalizes e n := by
    rw [edgesAsEffect_eq, List.filter_filter]
    refine List.filter_congr fun e _ => ?_
    rw [Bool.eq_iff_iff, Bool.and_eq_true, beq_iff_eq, decide_eq_true_eq]
    exact ⟨fun ⟨hleads, hends⟩ => (leadsOn_cause_iff hends).1 hleads,
      fun h => ⟨(leadsOn_cause_iff h.effect).2 h, h.effect⟩⟩
  rw [stepsFrom, List.filter_append, List.filter_map, List.filter_map]
  simp only [Function.comp_def, hcause, heffect, List.map_nil, List.nil_append]

/-- The general connector is the cause of the first edge that generalizes. -/
theorem generalConnector_eq (h : b.isConnector n (some .forward)) :
    b.generalConnector n =
      ((b.edgeIndices.find? fun e => b.Generalizes e n).map fun e => (b.edge e).cause).getD n := by
  rw [generalConnector, h, linearPaths_isGeneralization, filter_leadsOn, List.map_map,
    ← List.head?_filter]
  simp only [Bool.not_true, Bool.false_eq_true, if_false, List.head?_map]
  cases (b.edgeIndices.filter fun e => b.Generalizes e n).head? <;> rfl

/-- The first edge with a property, in the order in which the edges are declared. -/
theorem find?_edgeIndices_eq_some_iff {p : b.EdgeIx → Prop} [DecidablePred p] {e : b.EdgeIx} :
    (b.edgeIndices.find? fun e => p e) = some e ↔ p e ∧ ∀ e' < e, ¬ p e' := by
  rw [edgeIndices, ← Fin.find?_eq_find?_finRange, Fin.find?_eq_some_iff]
  simp

/-! ## Exactness -/

/-- The general form that is found is one. -/
theorem generalForm_generalConnector (b : Bundle) (n : b.NodeIx) :
    b.GeneralForm n (b.generalConnector n) := by
  by_cases hforward : b.isConnector n (some .forward)
  · rw [generalConnector_eq hforward]
    cases hfind : b.edgeIndices.find? fun e => b.Generalizes e n with
    | none =>
      refine .own hforward fun e => ?_
      simpa using List.find?_eq_none.1 hfind e (List.mem_finRange e)
    | some e =>
      obtain ⟨hgeneral, hfirst⟩ := find?_edgeIndices_eq_some_iff.1 hfind
      exact .first hforward hgeneral hfirst
  · have hown : b.generalConnector n = n := by simp [generalConnector, hforward]
    rw [hown]
    exact .other hforward

/-- A node has one general form. -/
theorem GeneralForm.unique {m m' : b.NodeIx} (h : b.GeneralForm n m) (h' : b.GeneralForm n m') :
    m = m' := by
  cases h with
  | other hother =>
    cases h' with
    | other | own => rfl
    | first hforward => exact absurd hforward hother
  | own hforward hnone =>
    cases h' with
    | other | own => rfl
    | first _ hgeneral _ => exact absurd hgeneral (hnone _)
  | @first e hforward hgeneral hfirst =>
    cases h' with
    | other hother => exact absurd hforward hother
    | own _ hnone => exact absurd hgeneral (hnone e)
    | @first e' _ hgeneral' hfirst' =>
      rcases lt_trichotomy e e' with hlt | rfl | hgt
      · exact absurd hgeneral (hfirst' e hlt)
      · rfl
      · exact absurd hgeneral' (hfirst e' hgt)

/-- The general form of a connector is a connector. -/
theorem GeneralForm.isConnector {m : b.NodeIx} (h : b.GeneralForm n m)
    (hforward : b.isConnector n (some .forward)) : b.isConnector m (some .forward) := by
  cases h with
  | other | own => exact hforward
  | first _ hgeneral _ => exact hgeneral.forward

/-- **The general form of a connector is found.** It is the cause of the first edge to a more general form,
and the node itself when there is none or when the node is no forward connector. It is always a node of the
bundle, and a forward connector if the node is one. -/
theorem generalConnector_exact (b : Bundle) (n : b.NodeIx) :
    (∀ m, b.generalConnector n = m ↔ b.GeneralForm n m) ∧
      b.node (b.generalConnector n) ∈ b.nodes ∧
      (b.isConnector n (some .forward) → b.isConnector (b.generalConnector n) (some .forward)) := by
  have hfound := generalForm_generalConnector b n
  refine ⟨fun m => ⟨?_, hfound.unique⟩, Array.getElem_mem _, hfound.isConnector⟩
  rintro rfl
  exact hfound

end Bundle

/-- A forward connector that specializes a plain node, itself and two more general connectors, of which the
first specializes the second. -/
def Sample.specialized : Bundle :=
  let connector (localPart : String) : Node :=
    (Node.bare ⟨"", localPart⟩ .entity).withAttribute Vocabulary.type
      (.qualifiedName ⟨Vocabulary.cpm, "forwardConnector"⟩)
  let specializes (cause effect : Fin 4) (others : List RelationKind) : Edge 4 :=
    ⟨cause, effect, others ++ [.specialization], List.append_ne_nil_of_right_ne_nil _ nofun⟩
  { id := ⟨"", "specialized"⟩
    nodes := #[connector "specific", .bare ⟨"", "plain"⟩ .entity, connector "general",
      connector "most general"]
    edges := #[specializes 1 0 [], specializes 0 0 [], specializes 2 0 [.derivation], specializes 3 0 [],
      specializes 3 2 []]
    distinct := by decide +kernel }

/-- The first fitting edge decides, and specializations are not followed further. -/
example : (Sample.specialized.generalConnector (0 : Fin 4)).val = 2 := by decide +kernel

end ProvenanceTrail
