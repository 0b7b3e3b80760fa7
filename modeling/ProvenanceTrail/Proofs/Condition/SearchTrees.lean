import ProvenanceTrail.Proofs.Condition.DerivationPath

/-!
# Filtered subgraphs are search trees

A filtered search gives one subgraph for each node that it starts from. Its nodes and edges are listed in
the order in which they were found, and the two lists stay in step: behind the start, each node has at the
same place the edge over which it was discovered (`Subgraph.IsSearchTree`).

The lists can also be kept apart, as a filter does that takes down the edges it accepts while the nodes are
listed when their turn comes (`Bundle.Recording`). Nodes wait in a queue in between, but they leave it in
the order of their edges, so that the lists come out the same (`Bundle.recorded_eq`).
-/

namespace ProvenanceTrail

/-! ## Edges and nodes in step -/

/-- A subgraph found from a start: its nodes are those to which accepted steps lead from the start. The
start is the first of them, and the edge at a place was accepted as a step from an earlier node to the next
one. -/
structure Subgraph.IsSearchTree {ε : Type} {b : Bundle} (g : Subgraph b) (filter : Step b → Except ε Bool)
    (start : b.NodeIx) : Prop where
  root : g.nodes.head? = some start
  distinct : g.nodes.Nodup
  reached : ∀ n, n ∈ g.nodes ↔
    Relation.ReflTransGen (fun n m => ∃ e, b.Joins e n m ∧ filter (Step.along e m) = .ok true) start n
  size : g.edges.length + 1 = g.nodes.length
  joined : ∀ i e m, g.edges[i]? = some e → g.nodes[i + 1]? = some m →
    ∃ j n, j ≤ i ∧ g.nodes[j]? = some n ∧ b.Joins e n m ∧ filter (Step.along e m) = .ok true

namespace Bundle

variable {ε : Type} {b : Bundle} {filter : Step b → Except ε Bool} {start : b.NodeIx}

namespace SearchTree

variable {tree : List (Step b × Nat)}

/-- Every step but the first has an edge. -/
theorem length_edges (h : b.SearchTree filter start tree) :
    ((tree.map Prod.fst).filterMap Step.edge).length + 1 = tree.length := by
  induction h with
  | root => rfl
  | grow _ _ _ _ _ _ ih =>
    rw [List.map_append, List.map_singleton, Growing.edges_concat, List.length_append,
      List.length_singleton, ih, List.length_append, List.length_singleton]

/-- The edge at a place is the one over which the node at the next place was discovered. -/
theorem joined (h : b.SearchTree filter start tree) {i : Nat} {e : b.EdgeIx} {m : b.NodeIx}
    (he : ((tree.map Prod.fst).filterMap Step.edge)[i]? = some e)
    (hm : (tree.map fun s => s.1.node)[i + 1]? = some m) :
    ∃ j n, j ≤ i ∧ (tree.map fun s => s.1.node)[j]? = some n ∧ b.Joins e n m ∧
      filter (Step.along e m) = .ok true := by
  induction h with
  | root => simp [Step.start] at he
  | @grow tree p e' m' htree hp hjoins haccepted _ _ ih =>
    have hsize := htree.length_edges
    rw [List.map_append, List.map_singleton, Growing.edges_concat] at he
    rw [List.map_append, List.map_singleton] at hm ⊢
    by_cases hi : i + 1 < tree.length
    · rw [List.getElem?_append_left (by omega)] at he
      rw [List.getElem?_append_left (by rwa [List.length_map])] at hm
      obtain ⟨j, n, hj, hn, hfound⟩ := ih he hm
      exact ⟨j, n, hj, by rwa [List.getElem?_append_left (by rw [List.length_map]; omega)], hfound⟩
    · -- the last step was made from a node of the tree before
      have hedge := (List.getElem?_eq_some_iff.1 he).1
      rw [List.length_append, List.length_singleton] at hedge
      obtain rfl : i = ((tree.map Prod.fst).filterMap Step.edge).length := by omega
      rw [hsize, List.getElem?_append_right (by rw [List.length_map]), List.length_map, Nat.sub_self] at hm
      rw [List.getElem?_concat_length] at he
      obtain rfl := Option.some.inj he
      obtain rfl := Option.some.inj hm
      obtain ⟨j, hj, hjp⟩ := List.getElem_of_mem hp
      refine ⟨j, p.1.node, by omega, ?_, hjoins, haccepted⟩
      rw [List.getElem?_append_left (by rwa [List.length_map]), List.getElem?_map,
        List.getElem?_eq_getElem hj, hjp]
      rfl

end SearchTree

/-- What a search from a node discovers makes a search tree. -/
theorem isSearchTree_ofSteps {steps : List (Step b)} (h : b.reachSteps filter start = .ok steps) :
    (Subgraph.ofSteps steps).IsSearchTree filter start := by
  obtain ⟨-, hexact, -⟩ := b.reachFiltered_exact filter start
  obtain ⟨hroot, hdistinct, hreached, -⟩ :=
    hexact (steps.map Step.node) (by rw [reachFiltered, h]; rfl)
  obtain ⟨order, rfl, hswept⟩ := exists_swept h
  have htree := hswept.tree
  rw [List.append_nil] at htree
  have hnodes : (order.map Prod.fst).map Step.node = order.map fun s => s.1.node := List.map_map ..
  constructor
  case root => exact hroot
  case distinct => exact hdistinct
  case reached => exact fun n => (hreached n).trans exists_walkTo_iff
  case size => simpa [Subgraph.ofSteps] using htree.length_edges
  case joined =>
    intro i e m he hm
    simp only [Subgraph.ofSteps, hnodes] at he hm ⊢
    exact htree.joined he hm

/-! ## Keeping nodes and edges apart -/

/-- A search under way that keeps nodes and edges apart: which nodes have been discovered, which of them
wait for their turn, and the edges taken down so far. -/
structure Recording (b : Bundle) where
  visited : b.NodeIx → Bool
  queue : List b.NodeIx
  edges : List b.EdgeIx

namespace Recording

/-- Tries the edges at a node. The filter takes down the edge of each step that it accepts, and the node
that the step reaches is queued. -/
def tryEdges (filter : Step b → Except ε Bool) :
    Recording b → List (b.EdgeIx × b.NodeIx) → Except ε (Recording b)
  | r, [] => .ok r
  | r, (e, m) :: rest =>
    if r.visited m then tryEdges filter r rest
    else
      match filter (Step.along e m) with
      | .error err => .error err
      | .ok false => tryEdges filter r rest
      | .ok true =>
        tryEdges filter ⟨fun n => r.visited n || n == m, r.queue ++ [m], r.edges ++ [e]⟩ rest

/-- Serves the queue, in at most `fuel` turns: the nodes in the order of their turns, and the edges taken
down. -/
def serve (filter : Step b → Except ε Bool) :
    Nat → Recording b → Except ε (List b.NodeIx × List b.EdgeIx)
  | 0, r => .ok ([], r.edges)
  | fuel + 1, r =>
    match r.queue with
    | [] => .ok ([], r.edges)
    | n :: queue =>
      match tryEdges filter { r with queue := queue } (b.stepsFrom n) with
      | .error err => .error err
      | .ok r => (serve filter fuel r).map fun found => (n :: found.1, found.2)

/-- Trying edges takes down the new steps, each by its edge and its node. -/
theorem tryEdges_eq (filter : Step b → Except ε Bool) {seen : List b.NodeIx} (r : Recording b)
    (hseen : ∀ n, r.visited n ↔ n ∈ seen) (edges : List (b.EdgeIx × b.NodeIx)) :
    r.tryEdges filter edges = (b.newSteps filter seen edges).map fun steps =>
      ⟨fun n => r.visited n || (steps.map Step.node).contains n, r.queue ++ steps.map Step.node,
        r.edges ++ steps.filterMap Step.edge⟩ := by
  induction edges generalizing r seen with
  | nil => simp [tryEdges, newSteps, Except.map]
  | cons edge rest ih =>
    obtain ⟨e, m⟩ := edge
    rw [tryEdges, newSteps]
    by_cases hm : m ∈ seen
    · rw [if_pos hm, if_pos ((hseen m).2 hm), ih r hseen]
    · rw [if_neg hm, if_neg fun h => hm ((hseen m).1 h)]
      rcases filter (Step.along e m) with err | accepted
      · rfl
      · cases accepted with
        | false => exact ih r hseen
        | true =>
          -- the node is marked at once, before the other edges are tried
          have hseen' : ∀ n, (r.visited n || n == m) = true ↔ n ∈ m :: seen := by
            intro n
            rw [Bool.or_eq_true, hseen n, beq_iff_eq, List.mem_cons, or_comm]
          have hrest := ih ⟨fun n => r.visited n || n == m, r.queue ++ [m], r.edges ++ [e]⟩ hseen'
          simp only [hrest]
          rcases b.newSteps filter (m :: seen) rest with err | steps
          · rfl
          · simp only [Except.map, List.map_cons, List.contains_cons, Step.along, List.append_assoc,
              List.singleton_append, Bool.or_assoc]
            rfl

/-- Serving the queue lists the nodes of the steps served, and the edges are those of all steps. -/
theorem serve_eq {fuel : Nat} {served queue : List (Step b × Nat)} {seen : List b.NodeIx} (r : Recording b)
    (h : b.Swept filter start served queue)
    (hseen : ∀ n, n ∈ seen ↔ n ∈ (served ++ queue).map fun s => s.1.node)
    (hfuel : b.nodes.size ≤ served.length + fuel) (hvisited : ∀ n, r.visited n ↔ n ∈ seen)
    (hqueue : r.queue = queue.map fun s => s.1.node)
    (hedges : r.edges = ((served ++ queue).map Prod.fst).filterMap Step.edge) :
    r.serve filter fuel = (b.serve filter fuel seen (queue.map Prod.fst)).map fun rest =>
      (rest.map Step.node, (served.map Prod.fst ++ rest).filterMap Step.edge) := by
  induction fuel generalizing served queue seen r with
  | zero =>
    obtain rfl := h.queue_eq_nil (by omega)
    simp [Recording.serve, Bundle.serve, Except.map, hedges]
  | succ fuel ih =>
    cases queue with
    | nil => simp [Recording.serve, Bundle.serve, Except.map, hedges, hqueue]
    | cons p queue =>
      have htried := tryEdges_eq filter ⟨r.visited, queue.map fun s => s.1.node, r.edges⟩ hvisited
        (b.stepsFrom p.1.node)
      simp only [Recording.serve, hqueue, List.map_cons, Bundle.serve, htried]
      rcases hsteps : b.newSteps filter seen (b.stepsFrom p.1.node) with err | steps
      · rfl
      · have hqueue' : queue.map Prod.fst ++ steps =
            (queue ++ steps.map fun s => (s, p.2 + 1)).map Prod.fst := by simp [Function.comp_def]
        have hsteps' : (served ++ p :: queue).map Prod.fst ++ steps =
            (served ++ [p] ++ (queue ++ steps.map fun s => (s, p.2 + 1))).map Prod.fst := by
          simp [Function.comp_def]
        -- both searches go on with the same steps behind the queue
        have hserved := ih ⟨fun n => r.visited n || (steps.map Step.node).contains n,
            (queue.map fun s => s.1.node) ++ steps.map Step.node, r.edges ++ steps.filterMap Step.edge⟩
          (h.step hseen hsteps) (Swept.mem_seen_step hseen)
          (by rw [List.length_append, List.length_singleton]; omega)
          (fun n => by
            rw [Bool.or_eq_true, hvisited n, List.contains_iff_mem, List.mem_append, or_comm])
          (by simp [Function.comp_def]) (by rw [hedges, ← List.filterMap_append, hsteps'])
        simp only [Except.map, hserved, hqueue']
        rcases b.serve filter fuel (steps.map Step.node ++ seen)
          ((queue ++ steps.map fun s => (s, p.2 + 1)).map Prod.fst) with err | rest
        · rfl
        · simp

end Recording

/-- The search from a node with nodes and edges kept apart. -/
def recorded (b : Bundle) (filter : Step b → Except ε Bool) (start : b.NodeIx) :
    Except ε (List b.NodeIx × List b.EdgeIx) :=
  Recording.serve filter b.nodes.size ⟨fun n => n == start, [start], []⟩

/-- Kept apart, nodes and edges come out as they stand in the steps. -/
theorem recorded_eq (b : Bundle) (filter : Step b → Except ε Bool) (start : b.NodeIx) :
    b.recorded filter start = (b.reachSteps filter start).map fun steps =>
      (steps.map Step.node, steps.filterMap Step.edge) :=
  Recording.serve_eq _ Swept.initial (by simp [Step.start]) (by simp) (by simp) rfl rfl

end Bundle

/-! ## The starts of a search -/

namespace Subgraph

variable {b : Bundle} {seen nodes : List b.NodeIx}

/-- First occurrences stand in the order in which they occur. -/
theorem pairwise_firstOccurrences :
    (firstOccurrences seen nodes).Pairwise fun n m => nodes.idxOf n < nodes.idxOf m := by
  induction nodes generalizing seen with
  | nil => exact .nil
  | cons x rest ih =>
    -- behind the first element, places are counted from it on
    have hshift {n : b.NodeIx} (hn : n ≠ x) : (x :: rest).idxOf n = rest.idxOf n + 1 :=
      List.idxOf_cons_ne _ hn.symm
    have hrest {seen : List b.NodeIx} (hx : x ∈ seen) :
        (firstOccurrences seen rest).Pairwise fun n m => (x :: rest).idxOf n < (x :: rest).idxOf m := by
      refine ih.imp_of_mem fun {n m} hn hm hlt => ?_
      have hne {k : b.NodeIx} (hk : k ∈ firstOccurrences seen rest) : k ≠ x := by
        rintro rfl
        exact (mem_firstOccurrences_iff.1 hk).2 hx
      rw [hshift (hne hn), hshift (hne hm)]
      exact Nat.succ_lt_succ hlt
    by_cases hx : x ∈ seen
    · rw [firstOccurrences_of_mem hx]
      exact hrest hx
    · rw [firstOccurrences_of_notMem hx]
      refine List.pairwise_cons.2 ⟨fun m hm => ?_, hrest List.mem_cons_self⟩
      have hne : m ≠ x := by
        rintro rfl
        exact (mem_firstOccurrences_iff.1 hm).2 List.mem_cons_self
      rw [List.idxOf_cons_self, hshift hne]
      exact Nat.succ_pos _

end Subgraph

/-- Collecting one result for each element gives a list that stands beside the elements. -/
theorem Bundle.forall₂_of_collect {α β γ ε : Type} {f : α → Except ε β} {g : β → γ} {as : List α}
    {found : List γ} (h : collect (fun a => (f a).map fun x => [g x]) as = .ok found) :
    List.Forall₂ (fun a y => ∃ x, f a = .ok x ∧ g x = y) as found := by
  induction as generalizing found with
  | nil =>
    obtain rfl := Except.ok.inj h
    exact .nil
  | cons a rest ih =>
    rw [collect] at h
    split at h
    · cases h
    · rename_i part hpart
      obtain ⟨x, hx, rfl⟩ := exists_of_map_eq_ok hpart
      split at h
      · cases h
      · rename_i more hmore
        obtain rfl := Except.ok.inj h
        exact .cons ⟨x, hx, rfl⟩ (ih hmore)

namespace Findable

/-- The nodes that a search starts from: the entry of the bundle, or the nodes that another search found,
each once and in the order in which they were found. -/
inductive Starts (v : BundleView) : Option Findable → List v.bundle.NodeIx → Prop
  | entry : Starts v none v.start.toList
  | found {inner : Findable} {inside : List (Subgraph v.bundle)} {starts : List v.bundle.NodeIx} :
      inner.find v = .ok inside → (∀ n, n ∈ starts ↔ ∃ g ∈ inside, n ∈ g.nodes) →
      starts.Pairwise (fun n m => (inside.flatMap Subgraph.nodes).idxOf n <
        (inside.flatMap Subgraph.nodes).idxOf m) → Starts v (some inner) starts

variable {v : BundleView} {starts : List v.bundle.NodeIx} {found : List (Subgraph v.bundle)}

/-- No node occurs twice among the starts. -/
theorem Starts.nodup {startsIn : Option Findable} (h : Starts v startsIn starts) : starts.Nodup := by
  cases h with
  | entry => cases v.start <;> simp
  | found _ _ horder => exact horder.imp fun {n m} hlt heq => absurd (heq ▸ hlt) (lt_irrefl _)

/-- What an inner search finds makes the starts of the outer one. -/
theorem starts_distinctNodes {inner : Findable} {inside : List (Subgraph v.bundle)}
    (h : inner.find v = .ok inside) : Starts v (some inner) (Subgraph.distinctNodes inside) := by
  refine .found h (fun n => ?_) Subgraph.pairwise_firstOccurrences
  rw [Subgraph.distinctNodes, Subgraph.mem_firstOccurrences_iff, List.mem_flatMap]
  simp

/-- What a filtered search found from some starts: for each of them a search tree, which a search that keeps
nodes and edges apart finds as well. -/
theorem filteredFrom_trees {filter : Condition StepPredicate} (h : filteredFrom v filter starts = .ok found) :
    List.Forall₂ (fun start g => g.IsSearchTree (fun s => filter.testStep s) start ∧
      v.bundle.recorded (fun s => filter.testStep s) start = .ok (g.nodes, g.edges)) starts found := by
  refine (Bundle.forall₂_of_collect h).imp ?_
  rintro start _ ⟨steps, hsteps, rfl⟩
  refine ⟨Bundle.isSearchTree_ofSteps hsteps, ?_⟩
  rw [Bundle.recorded_eq, hsteps]
  rfl

/-- **Filtered subgraphs are search trees.** A filtered search that succeeds starts from different nodes and
finds one subgraph for each of them, in their order. The nodes of a subgraph are those that accepted steps
reach from its start, and it has one edge fewer than nodes: behind the start, each node was discovered from
an earlier one by an accepted step over the edge at the same place. Nodes listed when their turn comes, and
edges taken down by the filter when it accepts them, give the same two lists. -/
theorem filtered_search_trees {filter : Condition StepPredicate} {startsIn : Option Findable}
    (h : (filtered (some filter) startsIn).find v = .ok found) :
    ∃ starts, Starts v startsIn starts ∧ starts.Nodup ∧
      List.Forall₂ (fun start g => g.IsSearchTree (fun s => filter.testStep s) start ∧
        v.bundle.recorded (fun s => filter.testStep s) start = .ok (g.nodes, g.edges)) starts found := by
  cases startsIn with
  | none => exact ⟨_, .entry, Starts.entry.nodup, filteredFrom_trees h⟩
  | some inner =>
    obtain ⟨inside, hinside, hfound⟩ := exists_of_bind_eq_ok h
    have hstarts := starts_distinctNodes hinside
    exact ⟨_, hstarts, hstarts.nodup, filteredFrom_trees hfound⟩

end Findable

namespace Sample

/-- What steps over communications reach, from each node that a walk from the entry reaches. -/
def communications : Findable :=
  .filtered (some (.leaf (.edgeToNode (some (.leaf (.isRelation (some .communication)))) none none)))
    (some (.filtered (some anyStep) none))

/-- From each of the three nodes the communications reach the two others. -/
theorem triangle_search_trees :
    ∃ found starts, communications.find triangleView = .ok found ∧ found.length = 3 ∧
      Findable.Starts triangleView (some (.filtered (some anyStep) none)) starts ∧
      List.Forall₂ (fun start g =>
        g.nodes.head? = some start ∧ g.edges.length + 1 = g.nodes.length) starts found := by
  have hlength : (communications.find triangleView).toOption.map List.length = some 3 := by decide
  cases hfound : communications.find triangleView with
  | error err => simp [hfound, Except.toOption] at hlength
  | ok found =>
    obtain ⟨starts, hstarts, -, htrees⟩ := Findable.filtered_search_trees hfound
    refine ⟨found, starts, rfl, by simpa [hfound, Except.toOption] using hlength, hstarts,
      htrees.imp fun _ _ h => ⟨h.1.root, h.1.size⟩⟩

example : (communications.find triangleView).map
      (·.map fun g => (g.nodes.map Fin.val, g.edges.map Fin.val)) =
    .ok [([0, 1, 2], [0, 3]), ([1, 2, 0], [2, 0]), ([2, 0, 1], [3, 2])] := by
  decide

end Sample

end ProvenanceTrail
