import Mathlib.Data.Fintype.Card
import Mathlib.Order.Lattice.Nat
import ProvenanceTrail.Proofs.Graph.Steps

/-!
# What the breadth-first search reaches

The search grows a tree: each step that it takes leads from a node that it has discovered to a new one
(`Bundle.SearchTree`). What holds between two services of its queue is `Bundle.Swept`: the tree holds the
steps served and those queued, no discovered node lies more than one level below a queued one, and the
accepted steps from served nodes lead to discovered ones. The last two make the depth of a node in the tree
the length of the shortest walk to it.

Failures of the filter come through unchanged (`Bundle.reachFiltered_mapError`). So a search that fails is
told apart from one that fails on one step only (`Bundle.Asks`) by the names of failures.
-/

namespace ProvenanceTrail.Bundle

variable {ε : Type} {b : Bundle} {filter : Step b → Except ε Bool} {start : b.NodeIx}

/-- A walk of so many steps, all of them accepted, leads from the start to a node. -/
inductive WalkTo (b : Bundle) (filter : Step b → Except ε Bool) (start : b.NodeIx) :
    Nat → b.NodeIx → Prop
  | start : WalkTo b filter start 0 start
  | step {k : Nat} {n m : b.NodeIx} {e : b.EdgeIx} : WalkTo b filter start k n → b.Joins e n m →
      filter (Step.along e m) = .ok true → WalkTo b filter start (k + 1) m

/-- The length of the shortest accepted walk to a node that one leads to. -/
noncomputable def distance (b : Bundle) (filter : Step b → Except ε Bool) (start n : b.NodeIx) : Nat :=
  sInf {k | b.WalkTo filter start k n}

/-! ## The tree of the search -/

/-- Steps that discover nodes one after the other, each with its depth. The first is the start. Every other
is an accepted one from an earlier node to a new one, and lies no higher than any before it. -/
inductive SearchTree (b : Bundle) (filter : Step b → Except ε Bool) (start : b.NodeIx) :
    List (Step b × Nat) → Prop
  | root : SearchTree b filter start [(Step.start start, 0)]
  | grow {tree : List (Step b × Nat)} {p : Step b × Nat} {e : b.EdgeIx} {m : b.NodeIx} :
      SearchTree b filter start tree → p ∈ tree → b.Joins e p.1.node m →
      filter (Step.along e m) = .ok true → m ∉ tree.map (fun s => s.1.node) →
      (∀ s ∈ tree, s.2 ≤ p.2 + 1) → SearchTree b filter start (tree ++ [(Step.along e m, p.2 + 1)])

namespace SearchTree

variable {tree : List (Step b × Nat)}

/-- A search tree starts with its root. -/
theorem head? (h : b.SearchTree filter start tree) : tree.head? = some (Step.start start, 0) := by
  induction h with
  | root => rfl
  | grow _ _ _ _ _ _ ih => rw [List.head?_append, ih, Option.some_or]

/-- No node occurs twice in a search tree. -/
theorem nodup (h : b.SearchTree filter start tree) : (tree.map fun s => s.1.node).Nodup := by
  induction h with
  | root => exact List.nodup_singleton _
  | grow _ _ _ _ hnew _ ih =>
    rw [List.map_append, List.map_singleton]
    refine List.nodup_append.2 ⟨ih, List.nodup_singleton _, ?_⟩
    rintro n hn _ hm rfl
    obtain rfl := List.mem_singleton.1 hm
    exact hnew hn

/-- The distances in a search tree never decrease. -/
theorem sorted (h : b.SearchTree filter start tree) : tree.Pairwise fun s t => s.2 ≤ t.2 := by
  induction h with
  | root => exact List.pairwise_singleton _ _
  | grow _ _ _ _ _ hdepth ih =>
    exact List.pairwise_append.2 ⟨ih, List.pairwise_singleton _ _, fun s hs t ht =>
      List.mem_singleton.1 ht ▸ hdepth s hs⟩

/-- The tree holds a walk to each of its nodes, as long as the node is deep. -/
theorem walkTo (h : b.SearchTree filter start tree) :
    ∀ s ∈ tree, b.WalkTo filter start s.2 s.1.node := by
  induction h with
  | root =>
    intro s hs
    obtain rfl := List.mem_singleton.1 hs
    exact .start
  | grow _ hp hjoins haccepted _ _ ih =>
    intro s hs
    rcases List.mem_append.1 hs with hs | hs
    · exact ih s hs
    · obtain rfl := List.mem_singleton.1 hs
      exact .step (ih _ hp) hjoins haccepted

/-- Trying edges at a discovered node makes the tree grow by the new steps, and all that the filter accepts
lead to nodes of the tree. -/
theorem newSteps {p : Step b × Nat} {seen : List b.NodeIx} {edges : List (b.EdgeIx × b.NodeIx)}
    {steps : List (Step b)} (h : b.SearchTree filter start tree) (hp : p ∈ tree)
    (hdepth : ∀ s ∈ tree, s.2 ≤ p.2 + 1) (hseen : ∀ n, n ∈ seen ↔ n ∈ tree.map fun s => s.1.node)
    (hjoins : ∀ s ∈ edges, b.Joins s.1 p.1.node s.2)
    (hsteps : b.newSteps filter seen edges = .ok steps) :
    b.SearchTree filter start (tree ++ steps.map fun s => (s, p.2 + 1)) ∧
      ∀ s ∈ edges, filter (Step.along s.1 s.2) = .ok true →
        ∃ t ∈ tree ++ steps.map (fun s => (s, p.2 + 1)), t.1.node = s.2 := by
  induction edges generalizing tree seen steps with
  | nil =>
    obtain rfl := Except.ok.inj hsteps
    simpa using h
  | cons edge rest ih =>
    obtain ⟨e, m⟩ := edge
    have hrest : ∀ s ∈ rest, b.Joins s.1 p.1.node s.2 := fun s hs =>
      hjoins s (List.mem_cons_of_mem _ hs)
    rw [Bundle.newSteps] at hsteps
    split at hsteps
    case isTrue hold =>
      obtain ⟨hgrown, hclosed⟩ := ih h hp hdepth hseen hrest hsteps
      refine ⟨hgrown, List.forall_mem_cons.2 ⟨fun _ => ?_, hclosed⟩⟩
      obtain ⟨t, ht, hnode⟩ := List.mem_map.1 ((hseen m).1 hold)
      exact ⟨t, List.mem_append_left _ ht, hnode⟩
    case isFalse hnew =>
      split at hsteps
      · cases hsteps
      · rename_i hrefused
        obtain ⟨hgrown, hclosed⟩ := ih h hp hdepth hseen hrest hsteps
        refine ⟨hgrown, List.forall_mem_cons.2 ⟨fun haccepted => ?_, hclosed⟩⟩
        rw [hrefused] at haccepted
        cases haccepted
      · rename_i haccepted
        split at hsteps
        · cases hsteps
        · rename_i more hmore
          obtain rfl := Except.ok.inj hsteps
          -- the tree grows by this step before the other edges are tried
          have hgrow := SearchTree.grow h hp (hjoins _ List.mem_cons_self) haccepted
            (fun hm => hnew ((hseen m).2 hm)) hdepth
          have hdepth' : ∀ s ∈ tree ++ [(Step.along e m, p.2 + 1)], s.2 ≤ p.2 + 1 := by
            intro s hs
            rcases List.mem_append.1 hs with hs | hs
            · exact hdepth s hs
            · exact (List.mem_singleton.1 hs) ▸ le_refl _
          have hseen' : ∀ n, n ∈ m :: seen ↔
              n ∈ (tree ++ [(Step.along e m, p.2 + 1)]).map fun s => s.1.node := by
            intro n
            rw [List.mem_cons, hseen n, List.map_append, List.mem_append, or_comm]
            simp [Step.along]
          obtain ⟨hgrown, hclosed⟩ :=
            ih hgrow (List.mem_append_left _ hp) hdepth' hseen' hrest hmore
          rw [List.append_assoc] at hgrown hclosed
          exact ⟨hgrown, List.forall_mem_cons.2 ⟨fun _ => ⟨(Step.along e m, p.2 + 1), by simp, rfl⟩,
            hclosed⟩⟩

end SearchTree

/-! ## Serving the queue -/

/-- What holds of the steps served and those queued, each with its depth. -/
structure Swept (b : Bundle) (filter : Step b → Except ε Bool) (start : b.NodeIx)
    (served queue : List (Step b × Nat)) : Prop where
  tree : b.SearchTree filter start (served ++ queue)
  /-- nothing lies more than one level below a queued step -/
  level : ∀ s ∈ queue, ∀ t ∈ served ++ queue, t.2 ≤ s.2 + 1
  /-- accepted steps from served nodes lead to discovered ones, at most one level below -/
  closed : ∀ s ∈ served, ∀ e m, b.Joins e s.1.node m → filter (Step.along e m) = .ok true →
    ∃ t ∈ served ++ queue, t.1.node = m ∧ t.2 ≤ s.2 + 1

namespace Swept

variable {served queue : List (Step b × Nat)} {seen : List b.NodeIx}

/-- Before the first step, only the start has been seen. -/
theorem initial : b.Swept filter start [] [(Step.start start, 0)] where
  tree := .root
  level := by simp
  closed := by simp

/-- Serving the next step, with the new steps at its node put behind the queue. -/
theorem step {p : Step b × Nat} {steps : List (Step b)} (h : b.Swept filter start served (p :: queue))
    (hseen : ∀ n, n ∈ seen ↔ n ∈ (served ++ p :: queue).map fun s => s.1.node)
    (hsteps : b.newSteps filter seen (b.stepsFrom p.1.node) = .ok steps) :
    b.Swept filter start (served ++ [p]) (queue ++ steps.map fun s => (s, p.2 + 1)) := by
  have hdepth := h.level p List.mem_cons_self
  have hshape : served ++ p :: queue ++ (steps.map fun s => (s, p.2 + 1)) =
      served ++ [p] ++ (queue ++ steps.map fun s => (s, p.2 + 1)) := by simp
  obtain ⟨htree, hreached⟩ := h.tree.newSteps (by simp) hdepth hseen
    (fun s hs => mem_stepsFrom_iff.1 hs) hsteps
  rw [hshape] at htree hreached
  have hold {t : Step b × Nat} (ht : t ∈ served ++ p :: queue) :
      t ∈ served ++ [p] ++ (queue ++ steps.map fun s => (s, p.2 + 1)) :=
    hshape ▸ List.mem_append_left _ ht
  have hsplit {t : Step b × Nat}
      (ht : t ∈ served ++ [p] ++ (queue ++ steps.map fun s => (s, p.2 + 1))) :
      t ∈ served ++ p :: queue ∨ t.2 = p.2 + 1 := by
    rw [← hshape] at ht
    refine (List.mem_append.1 ht).imp_right fun ht => ?_
    obtain ⟨s, -, rfl⟩ := List.mem_map.1 ht
    rfl
  constructor
  case tree => exact htree
  case level =>
    intro s hs t ht
    have hlow : t.2 ≤ p.2 + 1 := (hsplit ht).elim (hdepth t) le_of_eq
    rcases List.mem_append.1 hs with hs | hs
    · -- what was queued behind the served step lies no higher
      have hsorted := (List.pairwise_append.1 h.tree.sorted).2.1
      have hps := (List.pairwise_cons.1 hsorted).1 s hs
      omega
    · obtain ⟨s, -, rfl⟩ := List.mem_map.1 hs
      exact hlow.trans (Nat.le_succ _)
  case closed =>
    intro s hs e m hjoins haccepted
    rcases List.mem_append.1 hs with hs | hs
    · obtain ⟨t, ht, hnode, hlevel⟩ := h.closed s hs e m hjoins haccepted
      exact ⟨t, hold ht, hnode, hlevel⟩
    · obtain rfl := List.mem_singleton.1 hs
      obtain ⟨t, ht, hnode⟩ := hreached (e, m) (mem_stepsFrom_iff.2 hjoins) haccepted
      exact ⟨t, ht, hnode, (hsplit ht).elim (hdepth t) le_of_eq⟩

/-- The nodes discovered are different ones: when as many steps have been served as there are nodes, none is
queued. -/
theorem queue_eq_nil (h : b.Swept filter start served queue) (hserved : b.nodes.size ≤ served.length) :
    queue = [] := by
  have hlength := h.tree.nodup.length_le_card
  rw [Fintype.card_fin, List.length_map, List.length_append] at hlength
  exact List.length_eq_zero_iff.1 (by omega)

/-- Discovered are, with the new steps at the step that is served next, those before and the new ones. -/
theorem mem_seen_step {p : Step b × Nat} {steps : List (Step b)}
    (hseen : ∀ n, n ∈ seen ↔ n ∈ (served ++ p :: queue).map fun s => s.1.node) (n : b.NodeIx) :
    n ∈ steps.map Step.node ++ seen ↔
      n ∈ (served ++ [p] ++ (queue ++ steps.map fun s => (s, p.2 + 1))).map fun s => s.1.node := by
  simp only [List.mem_append, hseen n, List.map_append, List.map_cons, List.mem_cons,
    List.map_map, Function.comp_def, List.map_nil, List.not_mem_nil, or_false]
  tauto

/-- Serving the whole queue. The nodes discovered are different ones, so that there is always fuel for
those that are queued. -/
theorem serve {fuel : Nat} {rest : List (Step b)} (h : b.Swept filter start served queue)
    (hseen : ∀ n, n ∈ seen ↔ n ∈ (served ++ queue).map fun s => s.1.node)
    (hfuel : b.nodes.size ≤ served.length + fuel)
    (hserve : b.serve filter fuel seen (queue.map Prod.fst) = .ok rest) :
    ∃ order, order.map Prod.fst = served.map Prod.fst ++ rest ∧ b.Swept filter start order [] := by
  induction fuel generalizing served queue seen rest with
  | zero =>
    obtain rfl := h.queue_eq_nil hfuel
    obtain rfl := Except.ok.inj hserve
    exact ⟨served, by simp, h⟩
  | succ fuel ih =>
    cases queue with
    | nil =>
      obtain rfl := Except.ok.inj hserve
      exact ⟨served, by simp, h⟩
    | cons p queue =>
      rw [List.map_cons, Bundle.serve] at hserve
      split at hserve
      · cases hserve
      · rename_i steps hsteps
        split at hserve
        · cases hserve
        · rename_i more hmore
          obtain rfl := Except.ok.inj hserve
          -- the steps found are queued one level below the one served
          have hqueue : queue.map Prod.fst ++ steps =
              (queue ++ steps.map fun s => (s, p.2 + 1)).map Prod.fst := by
            simp [Function.comp_def]
          rw [hqueue] at hmore
          obtain ⟨order, horder, hswept⟩ := ih (h.step hseen hsteps) (mem_seen_step hseen)
            (by rw [List.length_append, List.length_singleton]; omega) hmore
          exact ⟨order, by simpa using horder, hswept⟩

variable {order : List (Step b × Nat)}

/-- Nothing is left to serve: each accepted walk leads to a node that lies no deeper than the walk is
long. -/
theorem exists_of_walkTo {k : Nat} {n : b.NodeIx} (h : b.Swept filter start order [])
    (hwalk : b.WalkTo filter start k n) : ∃ s ∈ order, s.1.node = n ∧ s.2 ≤ k := by
  induction hwalk with
  | start =>
    have hhead := h.tree.head?
    rw [List.append_nil] at hhead
    exact ⟨_, List.mem_of_head? hhead, rfl, le_refl _⟩
  | step _ hjoins haccepted ih =>
    obtain ⟨s, hs, rfl, hdepth⟩ := ih
    obtain ⟨t, ht, hnode, hlevel⟩ := h.closed s hs _ _ hjoins haccepted
    exact ⟨t, by simpa using ht, hnode, by omega⟩

/-- The depth of a node in the finished tree is its distance from the start. -/
theorem depth_eq_distance (h : b.Swept filter start order []) :
    ∀ s ∈ order, s.2 = b.distance filter start s.1.node := by
  intro s hs
  have hwalk : b.WalkTo filter start s.2 s.1.node := h.tree.walkTo s (by simpa using hs)
  refine le_antisymm ?_ (Nat.sInf_le hwalk)
  obtain ⟨t, ht, hnode, hdepth⟩ := h.exists_of_walkTo
    (Nat.sInf_mem (s := {k | b.WalkTo filter start k s.1.node}) ⟨_, hwalk⟩)
  have hdistinct := h.tree.nodup
  rw [List.append_nil] at hdistinct
  obtain rfl := List.inj_on_of_nodup_map hdistinct ht hs hnode
  exact hdepth

end Swept

/-- A search that succeeds has swept all that it can reach. -/
theorem exists_swept {steps : List (Step b)} (h : b.reachSteps filter start = .ok steps) :
    ∃ order, order.map Prod.fst = steps ∧ b.Swept filter start order [] :=
  Swept.initial.serve (by simp [Step.start]) (by simp) h

/-! ## Failures of the filter -/

section Failures

variable {seen : List b.NodeIx} {edges : List (b.EdgeIx × b.NodeIx)} {err : ε}

/-- Trying edges at a node fails only where the filter fails, on an edge to a new node. -/
theorem newSteps_eq_error (h : b.newSteps filter seen edges = .error err) :
    ∃ s ∈ edges, s.2 ∉ seen ∧ filter (Step.along s.1 s.2) = .error err := by
  induction edges generalizing seen with
  | nil => cases h
  | cons edge rest ih =>
    obtain ⟨e, m⟩ := edge
    rw [newSteps] at h
    split at h
    case isTrue =>
      obtain ⟨s, hs, hfails⟩ := ih h
      exact ⟨s, List.mem_cons_of_mem _ hs, hfails⟩
    case isFalse hnew =>
      split at h
      · rename_i hfails
        obtain rfl := Except.error.inj h
        exact ⟨(e, m), List.mem_cons_self, hnew, hfails⟩
      · obtain ⟨s, hs, hfails⟩ := ih h
        exact ⟨s, List.mem_cons_of_mem _ hs, hfails⟩
      · split at h
        · rename_i hmore
          obtain rfl := Except.error.inj h
          obtain ⟨s, hs, hseen, hfails⟩ := ih hmore
          exact ⟨s, List.mem_cons_of_mem _ hs, fun hold => hseen (List.mem_cons_of_mem _ hold), hfails⟩
        · cases h

/-- The new steps at a node are accepted ones over the edges that were tried. -/
theorem mem_newSteps {steps : List (Step b)} (h : b.newSteps filter seen edges = .ok steps) :
    ∀ s ∈ steps, ∃ e, (e, s.node) ∈ edges ∧ filter (Step.along e s.node) = .ok true := by
  induction edges generalizing seen steps with
  | nil =>
    obtain rfl := Except.ok.inj h
    simp
  | cons edge rest ih =>
    obtain ⟨e, m⟩ := edge
    have hrest {more : List (Step b)} {seen : List b.NodeIx}
        (hmore : b.newSteps filter seen rest = .ok more) :
        ∀ s ∈ more, ∃ e', (e', s.node) ∈ (e, m) :: rest ∧
          filter (Step.along e' s.node) = .ok true := by
      intro s hs
      obtain ⟨e', hmem, haccepted⟩ := ih hmore s hs
      exact ⟨e', List.mem_cons_of_mem _ hmem, haccepted⟩
    rw [newSteps] at h
    split at h
    case isTrue => exact hrest h
    case isFalse =>
      split at h
      · cases h
      · exact hrest h
      · rename_i haccepted
        split at h
        · cases h
        · rename_i more hmore
          obtain rfl := Except.ok.inj h
          exact List.forall_mem_cons.2 ⟨⟨e, List.mem_cons_self, haccepted⟩, hrest hmore⟩

/-- The search fails only where the filter fails, on a step from a node that it has reached to another node
than the start. -/
theorem serve_eq_error {fuel : Nat} {queue : List (Step b)}
    (hqueue : ∀ s ∈ queue, ∃ k, b.WalkTo filter start k s.node) (hstart : start ∈ seen)
    (h : b.serve filter fuel seen queue = .error err) :
    ∃ k n e m, b.WalkTo filter start k n ∧ b.Joins e n m ∧ m ≠ start ∧
      filter (Step.along e m) = .error err := by
  induction fuel generalizing seen queue with
  | zero => cases h
  | succ fuel ih =>
    cases queue with
    | nil => cases h
    | cons p queue =>
      obtain ⟨k, hwalk⟩ := hqueue p List.mem_cons_self
      rw [serve] at h
      split at h
      · rename_i hfails
        obtain rfl := Except.error.inj h
        obtain ⟨⟨e, m⟩, hmem, hseen, hfilter⟩ := newSteps_eq_error hfails
        refine ⟨k, p.node, e, m, hwalk, mem_stepsFrom_iff.1 hmem, ?_, hfilter⟩
        rintro rfl
        exact hseen hstart
      · rename_i steps hsteps
        split at h
        · rename_i hmore
          obtain rfl := Except.error.inj h
          -- what is queued is walked to: the rest of the queue as before, new steps over one more edge
          refine ih (fun s hs => ?_) (List.mem_append_right _ hstart) hmore
          rcases List.mem_append.1 hs with hs | hs
          · exact hqueue s (List.mem_cons_of_mem _ hs)
          · obtain ⟨e, hmem, haccepted⟩ := mem_newSteps hsteps s hs
            exact ⟨k + 1, .step hwalk (mem_stepsFrom_iff.1 hmem) haccepted⟩
        · cases h

/-- A search fails with the error of a step from a node that is walked to. -/
theorem reachFiltered_eq_error (h : b.reachFiltered filter start = .error err) :
    ∃ k n e m, b.WalkTo filter start k n ∧ b.Joins e n m ∧ m ≠ start ∧
      filter (Step.along e m) = .error err := by
  rw [reachFiltered, reachSteps] at h
  cases hserve : b.serve filter b.nodes.size [start] [Step.start start] with
  | ok steps => simp [hserve, Except.map] at h
  | error cause =>
    obtain rfl : cause = err := by simpa [hserve, Except.map] using h
    refine serve_eq_error (fun s hs => ?_) List.mem_cons_self hserve
    obtain rfl := List.mem_singleton.1 hs
    exact ⟨0, .start⟩

end Failures

/-! ## What the filter is asked -/

section Renaming

variable {ε' : Type} (rename : ε → ε')

/-- Giving other names to the failures of the filter does so to those of the search. -/
theorem newSteps_mapError (seen : List b.NodeIx) (edges : List (b.EdgeIx × b.NodeIx)) :
    b.newSteps (fun s => (filter s).mapError rename) seen edges =
      (b.newSteps filter seen edges).mapError rename := by
  induction edges generalizing seen with
  | nil => rfl
  | cons edge rest ih =>
    obtain ⟨e, m⟩ := edge
    simp only [newSteps, ih]
    split
    · rfl
    · rcases filter (Step.along e m) with cause | accepted
      · rfl
      · cases accepted with
        | false => rfl
        | true => rcases b.newSteps filter (m :: seen) rest with cause | steps <;> rfl

/-- Renaming the errors of the filter renames those of the search's loop. -/
theorem serve_mapError (fuel : Nat) (seen : List b.NodeIx) (queue : List (Step b)) :
    b.serve (fun s => (filter s).mapError rename) fuel seen queue =
      (b.serve filter fuel seen queue).mapError rename := by
  induction fuel generalizing seen queue with
  | zero => rfl
  | succ fuel ih =>
    cases queue with
    | nil => rfl
    | cons p queue =>
      simp only [serve, newSteps_mapError, ih]
      rcases b.newSteps filter seen (b.stepsFrom p.node) with cause | steps
      · rfl
      · simp only [Except.mapError]
        rcases b.serve filter fuel (steps.map Step.node ++ seen) (queue ++ steps) with cause | rest <;>
          rfl

/-- Renaming the errors of the filter renames those of the search. -/
theorem reachFiltered_mapError :
    b.reachFiltered (fun s => (filter s).mapError rename) start =
      (b.reachFiltered filter start).mapError rename := by
  simp only [reachFiltered, reachSteps, serve_mapError]
  rcases b.serve filter b.nodes.size [start] [Step.start start] with cause | steps <;> rfl

end Renaming

/-- The search asks the filter about a step: it would notice if the filter failed there. -/
def Asks (b : Bundle) (filter : Step b → Except ε Bool) (start : b.NodeIx) (s : Step b) : Prop :=
  b.reachFiltered (failingAt filter s) start = .error none

/-- What is walked to under a filter made to fail somewhere is walked to under the filter. -/
theorem WalkTo.of_failingAt {s : Step b} {k : Nat} {n : b.NodeIx}
    (h : b.WalkTo (failingAt filter s) start k n) : b.WalkTo filter start k n := by
  induction h with
  | start => exact .start
  | step _ hjoins haccepted ih => exact .step ih hjoins (failingAt_eq_ok haccepted)

/-- The filter is asked only about steps from nodes that are reached to other nodes than the start. -/
theorem Asks.exists_walkTo {s : Step b} (h : b.Asks filter start s) :
    ∃ k n e m, b.WalkTo filter start k n ∧ b.Joins e n m ∧ m ≠ start ∧ s = Step.along e m := by
  obtain ⟨k, n, e, m, hwalk, hjoins, hstart, hfails⟩ := reachFiltered_eq_error h
  exact ⟨k, n, e, m, hwalk.of_failingAt, hjoins, hstart, (failingAt_eq_error_none_iff.1 hfails).symm⟩

/-- The filter with each failure named together with the step on which it occurs. -/
def namingSteps (filter : Step b → Except ε Bool) (s : Step b) : Except (Step b × ε) Bool :=
  (filter s).mapError fun cause => (s, cause)

/-- A filter that names its steps fails at the step it names. -/
theorem namingSteps_eq_error {s t : Step b} {err : ε} (h : namingSteps filter t = .error (s, err)) :
    s = t ∧ filter t = .error err := by
  rw [namingSteps] at h
  rcases hfilter : filter t with cause | accepted
  · simpa [hfilter, Except.mapError, eq_comm] using h
  · simp [hfilter, Except.mapError] at h

/-- A search that fails has asked the filter about a step on which it fails. -/
theorem exists_asks {err : ε} (h : b.reachFiltered filter start = .error err) :
    ∃ s, b.Asks filter start s ∧ filter s = .error err := by
  have hplain : (fun s => (namingSteps filter s).mapError Prod.snd) = filter := by
    funext s
    rw [namingSteps]
    rcases filter s with cause | accepted <;> rfl
  have hnamed : b.reachFiltered (fun s => (namingSteps filter s).mapError Prod.snd) start = _ :=
    reachFiltered_mapError Prod.snd
  rw [hplain, h] at hnamed
  rcases hsearch : b.reachFiltered (namingSteps filter) start with ⟨s, cause⟩ | nodes
  · rw [hsearch] at hnamed
    obtain rfl := Except.error.inj hnamed
    have hs : filter s = .error err := by
      obtain ⟨-, -, e, m, -, -, -, hfails⟩ := reachFiltered_eq_error hsearch
      obtain ⟨rfl, hfilter⟩ := namingSteps_eq_error hfails
      exact hfilter
    refine ⟨s, ?_, hs⟩
    -- on this step the filter fails anyway, so that only the names of failures differ
    have hprobe : failingAt filter s = fun t => (namingSteps filter t).mapError
        fun named => if named.1 = s then none else some named.2 := by
      funext t
      rw [failingAt, namingSteps]
      by_cases hts : t = s
      · subst hts
        simp [hs, Except.mapError]
      · rcases filter t with cause | accepted <;> simp [Except.mapError, hts]
    rw [Asks, hprobe, reachFiltered_mapError, hsearch]
    simp [Except.mapError]
  · rw [hsearch] at hnamed
    cases hnamed

/-! ## Exactness -/

/-- **The search is exact.** It succeeds unless the filter fails on a step that it is asked about. Then it
lists the start first and each node once, just the nodes to which walks of accepted steps lead, nearest
first. A failure is one of the filter's on a step from such a node. The filter is asked about no other steps
than these, and about none that leads to the start. -/
theorem reachFiltered_exact (b : Bundle) (filter : Step b → Except ε Bool) (start : b.NodeIx) :
    ((∀ s, b.Asks filter start s → ∃ accepted, filter s = .ok accepted) →
        ∃ nodes, b.reachFiltered filter start = .ok nodes) ∧
      (∀ nodes, b.reachFiltered filter start = .ok nodes →
        nodes.head? = some start ∧ nodes.Nodup ∧
          (∀ n, n ∈ nodes ↔ ∃ k, b.WalkTo filter start k n) ∧
          nodes.Pairwise fun n m => b.distance filter start n ≤ b.distance filter start m) ∧
      (∀ err, b.reachFiltered filter start = .error err →
        ∃ k n e m, b.WalkTo filter start k n ∧ b.Joins e n m ∧
          filter (Step.along e m) = .error err) ∧
      ∀ s, b.Asks filter start s →
        ∃ k n e m, b.WalkTo filter start k n ∧ b.Joins e n m ∧ m ≠ start ∧ s = Step.along e m := by
  refine ⟨fun hasked => ?_, fun nodes hnodes => ?_, fun err herr => ?_, fun s => Asks.exists_walkTo⟩
  · cases h : b.reachFiltered filter start with
    | ok nodes => exact ⟨nodes, rfl⟩
    | error err =>
      obtain ⟨s, hs, hfails⟩ := exists_asks h
      obtain ⟨accepted, haccepted⟩ := hasked s hs
      rw [hfails] at haccepted
      cases haccepted
  · cases hsteps : b.reachSteps filter start with
    | error err => simp [reachFiltered, hsteps, Except.map] at hnodes
    | ok steps =>
      obtain ⟨order, rfl, hswept⟩ := exists_swept hsteps
      have htree := hswept.tree
      rw [List.append_nil] at htree
      obtain rfl : order.map (fun s => s.1.node) = nodes := by
        simpa [reachFiltered, hsteps, Except.map, Function.comp_def] using hnodes
      refine ⟨by simp [htree.head?, Step.start], htree.nodup, fun n => ⟨fun hn => ?_, ?_⟩, ?_⟩
      · obtain ⟨s, hs, rfl⟩ := List.mem_map.1 hn
        exact ⟨s.2, htree.walkTo s hs⟩
      · rintro ⟨k, hwalk⟩
        -- every walk ends at a node of the tree, since no accepted step leads out of it
        obtain ⟨s, hs, hnode, -⟩ := hswept.exists_of_walkTo hwalk
        exact List.mem_map.2 ⟨s, hs, hnode⟩
      · refine List.pairwise_map.2 (htree.sorted.imp_of_mem fun {s t} hs ht hdepth => ?_)
        rwa [hswept.depth_eq_distance s hs, hswept.depth_eq_distance t ht] at hdepth
  · obtain ⟨k, n, e, m, hwalk, hjoins, -, hfails⟩ := reachFiltered_eq_error herr
    exact ⟨k, n, e, m, hwalk, hjoins, hfails⟩

/-- Where the step over the edge between them is refused, the last node is reached by way of the second. -/
example :
    (Sample.triangle.reachFiltered (fun s => (.ok (s.edge.map Fin.val != some 3) : Except Unit Bool))
      (0 : Fin 3)).map (·.map Fin.val) = .ok [0, 1, 2] := by
  decide

end ProvenanceTrail.Bundle
