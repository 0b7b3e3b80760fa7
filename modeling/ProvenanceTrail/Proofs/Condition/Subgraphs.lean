import Mathlib.Logic.Relation
import ProvenanceTrail.Condition.Findable
import ProvenanceTrail.Proofs.Graph.LinearPath
import ProvenanceTrail.Proofs.Graph.Reach

/-!
# What a search within a bundle finds

The breadth-first search and the enumeration of linear paths have in common that they grow a list of steps:
each step after the first goes over an edge from the node of an earlier step to a new node
(`Bundle.Growing`). That is enough for the steps to make a genuine subgraph, since an edge used before would
have both of its ends among the earlier nodes.

A search may start from what another one found. So a subgraph is first said to lie around the node it was
grown from (`Subgraph.Around`), and the nodes that searches start from are followed back to the entry of the
bundle by induction on the search (`Findable.find_sound`). Only the search for the whole bundle breaks this
chain.
-/

namespace ProvenanceTrail

/-! ## Growing a list of steps -/

namespace Bundle

variable {b : Bundle} {start : b.NodeIx}

/-- Two nodes are linked when an edge joins them, in either direction. -/
def Linked (b : Bundle) (n m : b.NodeIx) : Prop := ∃ e, b.Joins e n m

/-- A node can be reached from another one over edges in either direction. -/
def Connected (b : Bundle) : b.NodeIx → b.NodeIx → Prop := Relation.ReflTransGen b.Linked

/-- Steps of which the first is a start, and each other one goes over an edge from the node of an earlier
step to a new node. -/
inductive Growing (b : Bundle) (start : b.NodeIx) : List (Step b) → Prop
  | start : Growing b start [Step.start start]
  | grow {steps : List (Step b)} {t : Step b} {e : b.EdgeIx} {m : b.NodeIx} :
      Growing b start steps → t ∈ steps → b.Joins e t.node m → m ∉ steps.map Step.node →
      Growing b start (steps ++ [Step.along e m])

/-- The tree of the breadth-first search grows. -/
theorem SearchTree.growing {ε : Type} {filter : Step b → Except ε Bool} {tree : List (Step b × Nat)}
    (h : b.SearchTree filter start tree) : b.Growing start (tree.map Prod.fst) := by
  induction h with
  | root => exact .start
  | grow _ hp hjoins _ hnew _ ih =>
    rw [List.map_append, List.map_singleton]
    exact .grow ih (List.mem_map_of_mem hp) hjoins (by rwa [List.map_map])

/-- A linear path grows at its end. -/
theorem Linear.growing {path : List (Step b)} (h : b.Linear (Step.start start) path) :
    b.Growing start path := by
  induction path using List.reverseRecOn with
  | nil => cases h.head
  | append_singleton path s ih =>
    obtain ⟨hhead, hjoined, hdistinct⟩ := h
    rw [List.map_append, List.map_singleton, List.nodup_append] at hdistinct
    obtain ⟨hbefore, -, hnew⟩ := hdistinct
    rw [List.isChain_append] at hjoined
    obtain ⟨hpath, -, hgoesOn⟩ := hjoined
    cases hlast : path.getLast? with
    | none =>
      obtain rfl := List.getLast?_eq_none_iff.1 hlast
      obtain rfl : s = Step.start start := by simpa using hhead
      exact .start
    | some t =>
      obtain ⟨e, hs, hjoins⟩ := hgoesOn t hlast s rfl
      have ht : t ∈ path := List.mem_of_getLast? hlast
      have hfirst : path.head? = some (Step.start start) := by
        cases path with
        | nil => cases ht
        | cons first rest => simpa using hhead
      rw [hs]
      refine .grow (ih ⟨hfirst, hpath, hbefore⟩) ht hjoins fun hold => ?_
      exact hnew _ hold _ (List.mem_singleton_self _) rfl

end Bundle

/-! ## Genuine subgraphs -/

/-- A genuine subgraph has different nodes and different edges, and both ends of its edges are among its
nodes. -/
structure Subgraph.Genuine {b : Bundle} (g : Subgraph b) : Prop where
  nodes : g.nodes.Nodup
  edges : g.edges.Nodup
  ends : ∀ e ∈ g.edges, (b.edge e).cause ∈ g.nodes ∧ (b.edge e).effect ∈ g.nodes

/-- A genuine subgraph of nodes that can be reached from a node. -/
structure Subgraph.Around {b : Bundle} (g : Subgraph b) (start : b.NodeIx) : Prop extends g.Genuine where
  reached : ∀ n ∈ g.nodes, b.Connected start n

namespace Bundle.Growing

variable {b : Bundle} {start : b.NodeIx} {steps : List (Step b)}

/-- No node occurs twice among growing steps. -/
theorem nodup (h : b.Growing start steps) : (steps.map Step.node).Nodup := by
  induction h with
  | start => exact List.nodup_singleton _
  | grow _ _ _ hnew ih =>
    rw [List.map_append, List.map_singleton]
    refine List.nodup_append.2 ⟨ih, List.nodup_singleton _, ?_⟩
    rintro n hn _ hm rfl
    obtain rfl := List.mem_singleton.1 hm
    exact hnew hn

/-- Every node of growing steps is connected to the start. -/
theorem connected (h : b.Growing start steps) : ∀ n ∈ steps.map Step.node, b.Connected start n := by
  induction h with
  | start =>
    intro n hn
    obtain rfl := List.mem_singleton.1 hn
    exact .refl
  | @grow steps t e m _ ht hjoins _ ih =>
    intro n hn
    rw [List.map_append, List.mem_append] at hn
    rcases hn with hn | hn
    · exact ih n hn
    · obtain rfl := List.mem_singleton.1 hn
      exact (ih t.node (List.mem_map_of_mem ht)).tail ⟨e, hjoins⟩

/-- The edges after one more step over an edge. -/
theorem edges_concat (steps : List (Step b)) (e : b.EdgeIx) (m : b.NodeIx) :
    (steps ++ [Step.along e m]).filterMap Step.edge = steps.filterMap Step.edge ++ [e] := by
  simp [Step.along]

/-- Every edge of growing steps joins two of their nodes. -/
theorem ends (h : b.Growing start steps) : ∀ e ∈ steps.filterMap Step.edge,
    (b.edge e).cause ∈ steps.map Step.node ∧ (b.edge e).effect ∈ steps.map Step.node := by
  induction h with
  | start => simp [Step.start]
  | @grow steps t e m _ ht hjoins _ ih =>
    intro e' he'
    rw [edges_concat, List.mem_append] at he'
    rw [List.map_append, List.map_singleton, List.mem_append, List.mem_append, List.mem_singleton,
      List.mem_singleton]
    rcases he' with he' | he'
    · exact (ih e' he').imp .inl .inl
    · obtain rfl := List.mem_singleton.1 he'
      have hfrom : t.node ∈ steps.map Step.node := List.mem_map_of_mem ht
      rcases hjoins with ⟨hcause, heffect⟩ | ⟨heffect, hcause⟩
      · exact ⟨.inl (hcause ▸ hfrom), .inr heffect⟩
      · exact ⟨.inr hcause, .inl (heffect ▸ hfrom)⟩

/-- No edge is used twice: one that was used before leads to no new node. -/
theorem nodup_edges (h : b.Growing start steps) : (steps.filterMap Step.edge).Nodup := by
  induction h with
  | start => exact .nil
  | @grow steps t e m hgrowing _ hjoins hnew ih =>
    rw [edges_concat]
    refine List.nodup_append.2 ⟨ih, List.nodup_singleton _, ?_⟩
    rintro e' he' _ hm rfl
    obtain rfl := List.mem_singleton.1 hm
    obtain ⟨hcause, heffect⟩ := hgrowing.ends e' he'
    rcases hjoins with ⟨-, rfl⟩ | ⟨-, rfl⟩
    · exact hnew heffect
    · exact hnew hcause

/-- Steps that grow make a genuine subgraph around their start. -/
theorem around (h : b.Growing start steps) : (Subgraph.ofSteps steps).Around start :=
  ⟨⟨h.nodup, h.nodup_edges, h.ends⟩, h.connected⟩

end Bundle.Growing

namespace Subgraph

variable {b : Bundle}

/-- The subgraph of one node lies around it. -/
theorem around_single (n : b.NodeIx) : (single n).Around n := (Bundle.Growing.start (b := b)).around

/-- All nodes and edges make a genuine subgraph. -/
theorem genuine_whole (b : Bundle) : (⟨b.nodeIndices, b.edgeIndices⟩ : Subgraph b).Genuine :=
  ⟨List.nodup_finRange _, List.nodup_finRange _, fun _ _ =>
    ⟨List.mem_finRange _, List.mem_finRange _⟩⟩

theorem firstOccurrences_of_mem {n : b.NodeIx} {seen rest : List b.NodeIx} (hn : n ∈ seen) :
    firstOccurrences seen (n :: rest) = firstOccurrences seen rest := if_pos hn

theorem firstOccurrences_of_notMem {n : b.NodeIx} {seen rest : List b.NodeIx} (hn : n ∉ seen) :
    firstOccurrences seen (n :: rest) = n :: firstOccurrences (n :: seen) rest := if_neg hn

/-- Kept are just the nodes that have not been seen before. -/
theorem mem_firstOccurrences_iff {n : b.NodeIx} {seen nodes : List b.NodeIx} :
    n ∈ firstOccurrences seen nodes ↔ n ∈ nodes ∧ n ∉ seen := by
  induction nodes generalizing seen with
  | nil =>
    show n ∈ [] ↔ n ∈ [] ∧ n ∉ seen
    simp
  | cons m rest ih =>
    by_cases hm : m ∈ seen
    · rw [firstOccurrences_of_mem hm, ih, List.mem_cons]
      grind
    · rw [firstOccurrences_of_notMem hm, List.mem_cons, ih, List.mem_cons, List.mem_cons]
      grind

/-- A list of different nodes that have not been seen is kept as it is. -/
theorem firstOccurrences_eq_self {seen nodes : List b.NodeIx} (hnodes : nodes.Nodup)
    (hseen : ∀ n ∈ nodes, n ∉ seen) : firstOccurrences seen nodes = nodes := by
  induction nodes generalizing seen with
  | nil => rfl
  | cons n rest ih =>
    obtain ⟨hn, hrest⟩ := List.nodup_cons.1 hnodes
    rw [firstOccurrences_of_notMem (hseen n List.mem_cons_self), ih hrest]
    rintro m hm hold
    rcases List.mem_cons.1 hold with rfl | hold
    · exact hn hm
    · exact hseen m (List.mem_cons_of_mem _ hm) hold

/-- Subgraphs without a common node keep all their nodes. -/
theorem distinctNodes_eq_flatMap {found : List (Subgraph b)} (h : (found.flatMap Subgraph.nodes).Nodup) :
    distinctNodes found = found.flatMap Subgraph.nodes :=
  firstOccurrences_eq_self h (by simp)

/-- The distinct nodes of one subgraph are its nodes. -/
theorem distinctNodes_singleton {g : Subgraph b} (h : g.nodes.Nodup) : distinctNodes [g] = g.nodes := by
  have hflat : [g].flatMap Subgraph.nodes = g.nodes := List.flatMap_singleton ..
  rw [distinctNodes_eq_flatMap (by rwa [hflat]), hflat]

/-- The distinct nodes of subgraphs of one node each are these. -/
theorem distinctNodes_map_single {nodes : List b.NodeIx} (h : nodes.Nodup) :
    distinctNodes (nodes.map single) = nodes := by
  have hflat : (nodes.map single).flatMap Subgraph.nodes = nodes := by simp [List.flatMap_map, single]
  rw [distinctNodes_eq_flatMap (by rwa [hflat]), hflat]

/-- Each of the distinct nodes is a node of some subgraph. -/
theorem exists_of_mem_distinctNodes {n : b.NodeIx} {found : List (Subgraph b)}
    (h : n ∈ distinctNodes found) : ∃ g ∈ found, n ∈ g.nodes :=
  List.mem_flatMap.1 (mem_firstOccurrences_iff.1 h).1

end Subgraph

/-! ## Searches from given nodes -/

/-- The elements that are kept are some of those that were looked at. -/
theorem Bundle.subset_of_filterOrFail {α ε : Type} {test : α → Except ε Bool} {as kept : List α}
    (h : filterOrFail test as = .ok kept) : kept ⊆ as := by
  induction as generalizing kept with
  | nil =>
    obtain rfl := Except.ok.inj h
    exact List.Subset.refl _
  | cons a rest ih =>
    rw [filterOrFail] at h
    split at h
    · cases h
    · rename_i passed _
      split at h
      · cases h
      · rename_i more hmore
        obtain rfl := Except.ok.inj h
        cases passed with
        | true => exact List.cons_subset_cons _ (ih hmore)
        | false => exact List.subset_cons_of_subset _ (ih hmore)

/-- A test that never fails keeps the elements that pass. -/
theorem Bundle.filterOrFail_eq_ok {α ε : Type} {test : α → Except ε Bool} {passes : α → Bool}
    (h : ∀ a, test a = .ok (passes a)) (as : List α) : filterOrFail test as = .ok (as.filter passes) := by
  induction as with
  | nil => rfl
  | cons a rest ih => cases hpasses : passes a <;> simp [filterOrFail, h, ih, hpasses]

/-- What succeeds on a mapped result comes from a result. -/
theorem exists_of_map_eq_ok {α β ε : Type} {r : Except ε α} {g : α → β} {x : β} (h : r.map g = .ok x) :
    ∃ a, r = .ok a ∧ g a = x := by
  cases r with
  | error err => cases h
  | ok a => exact ⟨a, rfl, Except.ok.inj h⟩

/-- What succeeds after a result goes on from that result. -/
theorem exists_of_bind_eq_ok {α β ε : Type} {r : Except ε α} {g : α → Except ε β} {x : β}
    (h : r >>= g = .ok x) : ∃ a, r = .ok a ∧ g a = .ok x := by
  cases r with
  | error err => cases h
  | ok a => exact ⟨a, rfl, h⟩

namespace Findable

variable {v : BundleView} {starts : List v.bundle.NodeIx} {found : List (Subgraph v.bundle)}

/-- A node found among starts makes a subgraph around one of them. -/
theorem nodesAmong_around {c : Condition NodePredicate} (h : nodesAmong v c starts = .ok found) :
    ∀ g ∈ found, ∃ n ∈ starts, g.Around n := by
  obtain ⟨nodes, hnodes, rfl⟩ := exists_of_map_eq_ok h
  intro g hg
  obtain ⟨n, hn, rfl⟩ := List.mem_map.1 hg
  exact ⟨n, Bundle.subset_of_filterOrFail hnodes hn, Subgraph.around_single n⟩

/-- Every subgraph of a filtered search lies around one of its starts. -/
theorem filteredFrom_around {filter : Condition StepPredicate}
    (h : filteredFrom v filter starts = .ok found) : ∀ g ∈ found, ∃ n ∈ starts, g.Around n := by
  intro g hg
  obtain ⟨n, hn, part, hpart, hmem⟩ := (Bundle.mem_of_collect h).1 hg
  obtain ⟨steps, hsteps, rfl⟩ := exists_of_map_eq_ok hpart
  obtain rfl := List.mem_singleton.1 hmem
  obtain ⟨order, rfl, hswept⟩ := Bundle.exists_swept hsteps
  have htree := hswept.tree
  rw [List.append_nil] at htree
  exact ⟨n, hn, htree.growing.around⟩

/-- Every linear path lies around one of its starts. -/
theorem pathsFrom_around {parts : List (Condition StepPredicate)}
    (h : pathsFrom v parts starts = .ok found) : ∀ g ∈ found, ∃ n ∈ starts, g.Around n := by
  intro g hg
  obtain ⟨n, hn, part, hpart, hmem⟩ := (Bundle.mem_of_collect h).1 hg
  obtain ⟨paths, hpaths, rfl⟩ := exists_of_map_eq_ok hpart
  obtain ⟨path, hpath, rfl⟩ := List.mem_map.1 hmem
  obtain ⟨-, honward, -⟩ := (Bundle.mem_pathsThrough hpaths).1 hpath
  exact ⟨n, hn, honward.toLinear.growing.around⟩

/-- What is reachable from the entry is connected to it. -/
theorem connected_of_mem_reachable {entry n : v.bundle.NodeIx} (h : n ∈ v.bundle.reachable entry) :
    v.bundle.Connected entry n := by
  unfold Bundle.reachable at h
  split at h
  rename_i nodes hnodes
  obtain ⟨steps, hsteps, rfl⟩ := exists_of_map_eq_ok hnodes
  obtain ⟨order, rfl, hswept⟩ := Bundle.exists_swept hsteps
  have htree := hswept.tree
  rw [List.append_nil] at htree
  exact htree.growing.connected n h

/-! ## Searches from the entry of a bundle -/

/-- Whether a search asks for the whole bundle, itself or where it starts. -/
def asksForAll : Findable → Bool
  | .fittingNodes _ (some inner) => inner.asksForAll
  | .linearPaths _ (some inner) => inner.asksForAll
  | .filtered _ (some inner) => inner.asksForAll
  | .wholeGraph => true
  | _ => false

/-- A node can be reached from the entry of a bundle, which therefore has one. -/
def Enters (v : BundleView) (n : v.bundle.NodeIx) : Prop :=
  ∃ entry, v.start = some entry ∧ v.bundle.Connected entry n

/-- The reachable nodes of a view are connected to its entry. -/
theorem enters_of_mem_reachable {n : v.bundle.NodeIx} (h : n ∈ reachable v) : Enters v n := by
  unfold reachable at h
  split at h
  · cases h
  · rename_i entry hentry
    exact ⟨entry, hentry, connected_of_mem_reachable h⟩

/-- The entry is connected to itself. -/
theorem enters_of_mem_start {n : v.bundle.NodeIx} (h : n ∈ v.start.toList) : Enters v n :=
  ⟨n, Option.mem_toList.1 h, .refl⟩

/-- The subgraphs that are found are genuine, and unless the whole bundle was asked for, each lies around a
node that can be reached from the entry. -/
def Sound (v : BundleView) (all : Bool) (found : List (Subgraph v.bundle)) : Prop :=
  ∀ g ∈ found, g.Genuine ∧ (all = false → ∃ n, Enters v n ∧ g.Around n)

/-- Subgraphs around starts are sound, where the starts are connected to the entry or all nodes are asked for.
-/
theorem sound_of_around {all : Bool} (h : ∀ g ∈ found, ∃ n ∈ starts, g.Around n)
    (hstarts : all = false → ∀ n ∈ starts, Enters v n) : Sound v all found := by
  intro g hg
  obtain ⟨n, hn, haround⟩ := h g hg
  exact ⟨haround.toGenuine, fun hall => ⟨n, hstarts hall n hn, haround⟩⟩

/-- The nodes of subgraphs that were found can be reached from the entry, as the next search needs. -/
theorem Sound.enters {all : Bool} (h : Sound v all found) (hall : all = false) :
    ∀ n ∈ Subgraph.distinctNodes found, Enters v n := by
  intro n hn
  obtain ⟨g, hg, hmem⟩ := Subgraph.exists_of_mem_distinctNodes hn
  obtain ⟨m, ⟨entry, hentry, hm⟩, haround⟩ := (h g hg).2 hall
  exact ⟨entry, hentry, hm.trans (haround.reached n hmem)⟩

/-- Every search finds sound subgraphs. -/
theorem find_sound {found : List (Subgraph v.bundle)} :
    ∀ {f : Findable}, f.find v = .ok found → Sound v f.asksForAll found
  | .fittingNodes none _, h | .linearPaths none _, h | .filtered none _, h => by cases h
  | .fittingNodes (some _) none, h =>
    sound_of_around (nodesAmong_around h) fun _ _ => enters_of_mem_reachable
  | .linearPaths (some _) none, h =>
    sound_of_around (pathsFrom_around h) fun _ _ => enters_of_mem_reachable
  | .filtered (some _) none, h =>
    sound_of_around (filteredFrom_around h) fun _ _ => enters_of_mem_start
  -- the starts come of an inner search, whose subgraphs are sound
  | .fittingNodes (some _) (some inner), h => by
    obtain ⟨before, hbefore, h⟩ := exists_of_bind_eq_ok h
    exact sound_of_around (nodesAmong_around h) (find_sound hbefore).enters
  | .linearPaths (some _) (some inner), h => by
    obtain ⟨before, hbefore, h⟩ := exists_of_bind_eq_ok h
    exact sound_of_around (pathsFrom_around h) (find_sound hbefore).enters
  | .filtered (some _) (some inner), h => by
    obtain ⟨before, hbefore, h⟩ := exists_of_bind_eq_ok h
    exact sound_of_around (filteredFrom_around h) (find_sound hbefore).enters
  | .derivationPath _, h => sound_of_around (filteredFrom_around h) fun _ _ => enters_of_mem_start
  | .startNode, h => by
    obtain rfl := Except.ok.inj h
    have haround : ∀ g ∈ v.start.toList.map Subgraph.single, ∃ n ∈ v.start.toList, g.Around n := by
      intro g hg
      obtain ⟨n, hn, rfl⟩ := List.mem_map.1 hg
      exact ⟨n, hn, Subgraph.around_single n⟩
    exact sound_of_around haround fun _ _ => enters_of_mem_start
  | .wholeGraph, h => by
    obtain rfl := Except.ok.inj h
    intro g hg
    obtain rfl := List.mem_singleton.1 hg
    exact ⟨Subgraph.genuine_whole v.bundle, nofun⟩
termination_by structural f => f

/-- **What is found is part of the bundle.** When a search succeeds, each subgraph that it gives has different
nodes and different edges, all of them of the bundle, and the ends of its edges are among its nodes. Unless
the whole bundle is asked for somewhere, every node that is found can be reached from the entry over edges in
either direction, and without an entry nothing is found. -/
theorem found_subgraphs_genuine {f : Findable} (h : f.find v = .ok found) :
    (∀ g ∈ found, g.nodes.Nodup ∧ g.edges.Nodup ∧
        ∀ e ∈ g.edges, (v.bundle.edge e).cause ∈ g.nodes ∧ (v.bundle.edge e).effect ∈ g.nodes) ∧
      (f.asksForAll = false →
        (∀ entry, v.start = some entry → ∀ g ∈ found, ∀ n ∈ g.nodes,
          Relation.ReflTransGen (fun n m => ∃ e, v.bundle.Joins e n m) entry n) ∧
        (v.start = none → found = [])) := by
  have hsound := find_sound h
  refine ⟨fun g hg => ?_, fun hall => ⟨fun entry hentry g hg n hn => ?_, fun hnone => ?_⟩⟩
  · obtain ⟨hnodes, hedges, hends⟩ := (hsound g hg).1
    exact ⟨hnodes, hedges, hends⟩
  · obtain ⟨m, ⟨entry', hentry', hm⟩, haround⟩ := (hsound g hg).2 hall
    obtain rfl : entry' = entry := Option.some.inj (hentry'.symm.trans hentry)
    exact hm.trans (haround.reached n hn)
  · refine List.eq_nil_iff_forall_not_mem.2 fun g hg => ?_
    obtain ⟨m, ⟨entry, hentry, -⟩, -⟩ := (hsound g hg).2 hall
    rw [hnone] at hentry
    cases hentry

end Findable

namespace Sample

/-- The condition that every step satisfies. -/
def anyStep : Condition StepPredicate := .leaf (.edgeToNode none none none)

/-- The paths over one edge, from all nodes that a walk from the entry reaches. -/
def nearbyPaths : Findable := .linearPaths (some [anyStep, anyStep]) (some (.filtered (some anyStep) none))

/-- The triangle entered at its first node. -/
def triangleView : BundleView := ⟨triangle, some (0 : Fin 3)⟩

/-- The triangle has eight such paths: each side is taken in both directions, and one of them is two
edges. -/
theorem triangle_paths_genuine :
    ∃ found, nearbyPaths.find triangleView = .ok found ∧ found.length = 8 ∧
      (∀ g ∈ found, ∀ e ∈ g.edges,
        (triangle.edge e).cause ∈ g.nodes ∧ (triangle.edge e).effect ∈ g.nodes) ∧
      ∀ g ∈ found, ∀ n ∈ g.nodes,
        Relation.ReflTransGen (fun n m => ∃ e, triangle.Joins e n m) (0 : Fin 3) n := by
  have hlength : (nearbyPaths.find triangleView).toOption.map List.length = some 8 := by decide
  cases hfound : nearbyPaths.find triangleView with
  | error err => simp [hfound, Except.toOption] at hlength
  | ok found =>
    obtain ⟨hgenuine, hentered⟩ := Findable.found_subgraphs_genuine hfound
    refine ⟨found, rfl, by simpa [hfound, Except.toOption] using hlength,
      fun g hg => (hgenuine g hg).2.2, (hentered rfl).1 _ rfl⟩

end Sample

end ProvenanceTrail
