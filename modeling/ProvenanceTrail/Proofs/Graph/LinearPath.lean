import Mathlib.Data.List.Chain
import ProvenanceTrail.Graph.LinearPath
import ProvenanceTrail.Proofs.Graph.Steps

/-!
# Which linear paths are found

A path that is looked for has pairwise different nodes, goes from each to the next over an edge, and passes
the test at each position. `Bundle.pathsThrough` finds the ends of such paths behind the nodes of a path
that it is given, so that all is said relative to these nodes first (`Bundle.Onward`).

Paths that start alike are ordered by the steps with which they part, as these are listed at the node before
(`Bundle.Precedes`). The tests that are made are ordered in the same way, each by the path to which it would
add a step (`Bundle.Tries`); the first one that fails decides.
-/

namespace ProvenanceTrail.Bundle

variable {ε : Type} {b : Bundle}

/-! ## Paths and their order -/

/-- One step goes on from another: over an edge that joins their nodes. -/
def GoesOn (b : Bundle) (s t : Step b) : Prop :=
  ∃ e, t = Step.along e t.node ∧ b.Joins e s.node t.node

/-- A step goes on to the steps from its node. -/
theorem goesOn_iff {s t : Step b} :
    b.GoesOn s t ↔ ∃ next ∈ b.stepsFrom s.node, t = Step.along next.1 next.2 := by
  constructor
  · rintro ⟨e, heq, hjoins⟩
    exact ⟨(e, t.node), mem_stepsFrom_iff.2 hjoins, heq⟩
  · rintro ⟨⟨e, m⟩, hmem, rfl⟩
    exact ⟨e, rfl, mem_stepsFrom_iff.1 hmem⟩

/-- Steps that go on from one another over pairwise different nodes, beginning with a given step. -/
structure Linear (b : Bundle) (first : Step b) (path : List (Step b)) : Prop where
  head : path.head? = some first
  joined : path.IsChain b.GoesOn
  distinct : (path.map Step.node).Nodup

/-- The steps of a path pass the test for the positions from `n` on. -/
def Passes (test : Nat → Step b → Except ε Bool) (n : Nat) (path : List (Step b)) : Prop :=
  ∀ i s, path[i]? = some s → test (n + i) s = .ok true

/-- A path passes just if its first step does and the others do behind it. -/
theorem passes_cons_iff {test : Nat → Step b → Except ε Bool} {n : Nat} {s : Step b}
    {path : List (Step b)} :
    Passes test n (s :: path) ↔ test n s = .ok true ∧ Passes test (n + 1) path := by
  constructor
  · intro h
    refine ⟨h 0 s rfl, fun i t ht => ?_⟩
    rw [Nat.add_right_comm]
    exact h (i + 1) t (by rwa [List.getElem?_cons_succ])
  · rintro ⟨hs, hpath⟩ i t ht
    cases i with
    | zero =>
      obtain rfl : s = t := by simpa using ht
      exact hs
    | succ i =>
      have := hpath i t (by rwa [List.getElem?_cons_succ] at ht)
      rwa [Nat.add_right_comm] at this

/-- One path comes before another: where they part, its step is listed first at the node that both come
from. -/
inductive Precedes (b : Bundle) : List (Step b) → List (Step b) → Prop
  | part {s : Step b} {e f : b.EdgeIx} {n m : b.NodeIx} {p q : List (Step b)} :
      (b.stepsFrom s.node).idxOf (e, n) < (b.stepsFrom s.node).idxOf (f, m) →
      Precedes b (s :: Step.along e n :: p) (s :: Step.along f m :: q)
  | shared {s : Step b} {p q : List (Step b)} : Precedes b p q → Precedes b (s :: p) (s :: q)

/-- No two paths precede each other. -/
theorem Precedes.asymm {p q : List (Step b)} (h : b.Precedes p q) : ¬ b.Precedes q p := by
  induction h with
  | part hlt =>
    intro h
    cases h with
    | part hgt => exact lt_asymm hlt hgt
    | shared h => cases h <;> exact lt_irrefl _ hlt
  | shared hpq ih =>
    intro h
    cases h with
    | part hgt => cases hpq <;> exact lt_irrefl _ hgt
    | shared h => exact ih h

/-! ## Going on behind a path -/

variable {onPath : List b.NodeIx} {step : Step b}

/-- A path that begins with a given step and shares no node with the path that it goes on from. -/
structure Onward (b : Bundle) (onPath : List b.NodeIx) (step : Step b) (path : List (Step b)) : Prop
    extends b.Linear step path where
  new : ∀ s ∈ path, s.node ∉ onPath

/-- With no nodes to avoid, a path leads onward just if it is linear. -/
theorem onward_nil_iff {path : List (Step b)} : b.Onward [] step path ↔ b.Linear step path :=
  ⟨Onward.toLinear, fun h => ⟨h, by simp⟩⟩

/-- A path that leads onward from a step starts with it. -/
theorem Onward.exists_cons {path : List (Step b)} (h : b.Onward onPath step path) :
    ∃ rest, path = step :: rest := by
  cases path with
  | nil => cases h.head
  | cons s rest =>
    obtain rfl : s = step := by simpa using h.head
    exact ⟨rest, rfl⟩

/-- A step leads onward only from a node that is not on the path. -/
theorem Onward.notMem {path : List (Step b)} (h : b.Onward onPath step path) : step.node ∉ onPath := by
  obtain ⟨rest, rfl⟩ := h.exists_cons
  exact h.new step List.mem_cons_self

/-- After its first step such a path goes on with a step that is listed at the node. -/
theorem onward_cons_iff {s : Step b} {path : List (Step b)} :
    b.Onward onPath step (s :: path) ↔ s = step ∧ step.node ∉ onPath ∧
      (path = [] ∨ ∃ next ∈ b.stepsFrom step.node,
        b.Onward (step.node :: onPath) (Step.along next.1 next.2) path) := by
  constructor
  · intro h
    obtain ⟨⟨hhead, hjoined, hdistinct⟩, hnew⟩ := h
    obtain rfl : s = step := by simpa using hhead
    refine ⟨rfl, hnew s List.mem_cons_self, ?_⟩
    cases path with
    | nil => exact .inl rfl
    | cons t path =>
      rw [List.isChain_cons_cons] at hjoined
      rw [List.map_cons, List.nodup_cons] at hdistinct
      -- the second step goes on from the first, and its path avoids the node of the first as well
      obtain ⟨next, hnext, ht⟩ := goesOn_iff.1 hjoined.1
      refine .inr ⟨next, hnext, ⟨by rw [ht]; rfl, hjoined.2, hdistinct.2⟩, fun u hu hold => ?_⟩
      rcases List.mem_cons.1 hold with hold | hold
      · exact hdistinct.1 (hold ▸ List.mem_map_of_mem hu)
      · exact hnew u (List.mem_cons_of_mem _ hu) hold
  · rintro ⟨rfl, hstep, rfl | ⟨next, hnext, h⟩⟩
    · exact ⟨⟨rfl, List.isChain_singleton _, List.nodup_singleton _⟩, by simpa using hstep⟩
    · obtain ⟨rest, rfl⟩ := h.exists_cons
      refine ⟨⟨rfl, List.isChain_cons_cons.2 ⟨goesOn_iff.2 ⟨next, hnext, rfl⟩, h.joined⟩, ?_⟩, ?_⟩
      · refine List.nodup_cons.2 ⟨fun hmem => ?_, h.distinct⟩
        obtain ⟨u, hu, hnode⟩ := List.mem_map.1 hmem
        exact h.new u hu (hnode ▸ List.mem_cons_self)
      · exact List.forall_mem_cons.2
          ⟨hstep, fun u hu hold => h.new u hu (List.mem_cons_of_mem _ hold)⟩

/-! ## Collecting results -/

section Collect

variable {α β : Type} {f : α → Except ε (List β)} {as : List α}

/-- Collected is just what some part holds. -/
theorem mem_of_collect {found : List β} (h : collect f as = .ok found) {x : β} :
    x ∈ found ↔ ∃ a ∈ as, ∃ part, f a = .ok part ∧ x ∈ part := by
  induction as generalizing found with
  | nil =>
    obtain rfl := Except.ok.inj h
    simp
  | cons a rest ih =>
    rw [collect] at h
    split at h
    · cases h
    · rename_i part hpart
      split at h
      · cases h
      · rename_i more hmore
        obtain rfl := Except.ok.inj h
        rw [List.mem_append, ih hmore, List.exists_mem_cons_iff]
        simp [hpart]

/-- Where all is collected, no part fails. -/
theorem exists_ok_of_collect {found : List β} (h : collect f as = .ok found) :
    ∀ a ∈ as, ∃ part, f a = .ok part := by
  induction as generalizing found with
  | nil => simp
  | cons a rest ih =>
    rw [collect] at h
    split at h
    · cases h
    · rename_i part hpart
      split at h
      · cases h
      · rename_i more hmore
        exact List.forall_mem_cons.2 ⟨⟨part, hpart⟩, ih hmore⟩

/-- What is collected is ordered when each part is and when the parts come in order. -/
theorem pairwise_of_collect {R : β → β → Prop} {found : List β} (h : collect f as = .ok found)
    (hparts : ∀ a ∈ as, ∀ part, f a = .ok part → part.Pairwise R)
    (hbetween : as.Pairwise fun a a' => ∀ part part', f a = .ok part → f a' = .ok part' →
      ∀ x ∈ part, ∀ y ∈ part', R x y) : found.Pairwise R := by
  induction as generalizing found with
  | nil =>
    obtain rfl := Except.ok.inj h
    exact .nil
  | cons a rest ih =>
    obtain ⟨hfirst, hbetween⟩ := List.pairwise_cons.1 hbetween
    rw [collect] at h
    split at h
    · cases h
    · rename_i part hpart
      split at h
      · cases h
      · rename_i more hmore
        obtain rfl := Except.ok.inj h
        refine List.pairwise_append.2 ⟨hparts a List.mem_cons_self part hpart,
          ih hmore (fun a' ha' => hparts a' (List.mem_cons_of_mem _ ha')) hbetween, ?_⟩
        intro x hx y hy
        obtain ⟨a', ha', part', hpart', hy⟩ := (mem_of_collect hmore).1 hy
        exact hfirst a' ha' part part' hpart hpart' x hx y hy

/-- Collecting fails with the first element that fails. -/
theorem exists_of_collect_eq_error {err : ε} (h : collect f as = .error err) :
    ∃ before a after, as = before ++ a :: after ∧ f a = .error err ∧
      ∀ a' ∈ before, ∃ part, f a' = .ok part := by
  induction as with
  | nil => cases h
  | cons a rest ih =>
    rw [collect] at h
    split at h
    · rename_i hfails
      obtain rfl := Except.error.inj h
      exact ⟨[], a, rest, rfl, hfails, by simp⟩
    · rename_i part hpart
      split at h
      · rename_i hmore
        obtain rfl := Except.error.inj h
        obtain ⟨before, a', after, rfl, hfails, hbefore⟩ := ih hmore
        exact ⟨a :: before, a', after, rfl, hfails, List.forall_mem_cons.2 ⟨⟨part, hpart⟩, hbefore⟩⟩
      · cases h

end Collect

/-! ## Paths through a step -/

variable {test : Nat → Step b → Except ε Bool} {remaining : Nat}

/-- How looking for paths of `remaining + 1` steps can turn out. -/
inductive Outcome (b : Bundle) (test : Nat → Step b → Except ε Bool) (remaining : Nat)
    (onPath : List b.NodeIx) (step : Step b) : Except ε (List (List (Step b))) → Prop
  | old : step.node ∈ onPath → Outcome b test remaining onPath step (.ok [])
  | refused : test onPath.length step = .ok false → Outcome b test remaining onPath step (.ok [])
  | failed {err : ε} : step.node ∉ onPath → test onPath.length step = .error err →
      Outcome b test remaining onPath step (.error err)
  | ended : step.node ∉ onPath → test onPath.length step = .ok true → remaining = 0 →
      Outcome b test remaining onPath step (.ok [[step]])
  | stopped {err : ε} : step.node ∉ onPath → test onPath.length step = .ok true →
      collect (fun next => b.pathsThrough test remaining (step.node :: onPath)
        (Step.along next.1 next.2)) (b.stepsFrom step.node) = .error err →
      Outcome b test remaining onPath step (.error err)
  | extended {found : List (List (Step b))} : step.node ∉ onPath →
      test onPath.length step = .ok true → remaining ≠ 0 →
      collect (fun next => b.pathsThrough test remaining (step.node :: onPath)
        (Step.along next.1 next.2)) (b.stepsFrom step.node) = .ok found →
      Outcome b test remaining onPath step (.ok (found.map (step :: ·)))

/-- The search through a step has the outcome of its test and of the steps behind it. -/
theorem outcome : b.Outcome test remaining onPath step
    (b.pathsThrough test (remaining + 1) onPath step) := by
  by_cases hnew : step.node ∈ onPath
  · rw [show b.pathsThrough test (remaining + 1) onPath step = .ok [] from if_pos hnew]
    exact .old hnew
  · rw [show b.pathsThrough test (remaining + 1) onPath step = _ from if_neg hnew]
    split
    · rename_i hfails
      exact .failed hnew hfails
    · rename_i hrefused
      exact .refused hrefused
    · rename_i hpassed
      split
      case isTrue hlast => exact .ended hnew hpassed hlast
      case isFalse hmore =>
        split
        · rename_i hstops
          exact .stopped hnew hpassed hstops
        · rename_i hfound
          exact .extended hnew hpassed hmore hfound

/-- The paths that are found are those that go on from the path so far and pass the test. -/
theorem mem_pathsThrough {paths : List (List (Step b))}
    (h : b.pathsThrough test remaining onPath step = .ok paths) {path : List (Step b)} :
    path ∈ paths ↔
      path.length = remaining ∧ b.Onward onPath step path ∧ Passes test onPath.length path := by
  induction remaining generalizing onPath step paths path with
  | zero =>
    obtain rfl := Except.ok.inj h
    refine ⟨by simp, fun ⟨hlength, honward, _⟩ => ?_⟩
    obtain rfl := List.length_eq_zero_iff.1 hlength
    cases honward.head
  | succ remaining ih =>
    have hcases : b.Outcome test remaining onPath step _ := outcome
    rw [h] at hcases
    -- only a step that is new and passes has paths through it
    cases hcases with
    | old hold =>
      refine ⟨by simp, fun ⟨_, honward, _⟩ => (honward.notMem hold).elim⟩
    | refused hrefused =>
      refine ⟨by simp, fun ⟨_, honward, hpasses⟩ => ?_⟩
      obtain ⟨rest, rfl⟩ := honward.exists_cons
      have hfirst := (passes_cons_iff.1 hpasses).1
      rw [hrefused] at hfirst
      cases hfirst
    | ended hnew hpassed hlast =>
      subst hlast
      rw [List.mem_singleton]
      constructor
      · rintro rfl
        refine ⟨rfl, onward_cons_iff.2 ⟨rfl, hnew, .inl rfl⟩, passes_cons_iff.2 ⟨hpassed, ?_⟩⟩
        simp [Passes]
      · rintro ⟨hlength, honward, -⟩
        obtain ⟨rest, rfl⟩ := honward.exists_cons
        rw [List.length_eq_zero_iff.1 (Nat.succ.inj hlength)]
    | extended hnew hpassed hmore hfound =>
      rw [List.mem_map]
      constructor
      · rintro ⟨rest, hrest, rfl⟩
        obtain ⟨next, hnext, part, hpart, hrest⟩ := (mem_of_collect hfound).1 hrest
        obtain ⟨hlength, honward, hpasses⟩ := (ih hpart).1 hrest
        exact ⟨congrArg Nat.succ hlength,
          onward_cons_iff.2 ⟨rfl, hnew, .inr ⟨next, hnext, honward⟩⟩,
          passes_cons_iff.2 ⟨hpassed, hpasses⟩⟩
      · rintro ⟨hlength, honward, hpasses⟩
        obtain ⟨rest, rfl⟩ := honward.exists_cons
        have hlength : rest.length = remaining := Nat.succ.inj hlength
        obtain ⟨-, -, rfl | ⟨next, hnext, honward⟩⟩ := onward_cons_iff.1 honward
        · exact (hmore hlength.symm).elim
        · obtain ⟨part, hpart⟩ := exists_ok_of_collect hfound next hnext
          exact ⟨rest, (mem_of_collect hfound).2 ⟨next, hnext, part, hpart,
            (ih hpart).2 ⟨hlength, honward, (passes_cons_iff.1 hpasses).2⟩⟩, rfl⟩

/-- Paths that part at a node come in the order of the steps with which they go on there. -/
theorem Onward.precedes {next next' : b.EdgeIx × b.NodeIx} {p q : List (Step b)}
    (hp : b.Onward (step.node :: onPath) (Step.along next.1 next.2) p)
    (hq : b.Onward (step.node :: onPath) (Step.along next'.1 next'.2) q)
    (h : [next, next'].Sublist (b.stepsFrom step.node)) : b.Precedes (step :: p) (step :: q) := by
  obtain ⟨p, rfl⟩ := hp.exists_cons
  obtain ⟨q, rfl⟩ := hq.exists_cons
  exact .part (idxOf_lt_idxOf h (List.ne_of_not_mem_cons hq.notMem))

/-- The paths through a step are found in their order. -/
theorem pairwise_pathsThrough {paths : List (List (Step b))}
    (h : b.pathsThrough test remaining onPath step = .ok paths) : paths.Pairwise b.Precedes := by
  induction remaining generalizing onPath step paths with
  | zero =>
    obtain rfl := Except.ok.inj h
    exact .nil
  | succ remaining ih =>
    have hcases : b.Outcome test remaining onPath step _ := outcome
    rw [h] at hcases
    cases hcases with
    | old | refused => exact .nil
    | ended => exact List.pairwise_singleton _ _
    | extended hnew hpassed hmore hfound =>
      refine List.pairwise_map.2 (pairwise_of_collect hfound ?_ ?_)
      · exact fun next _ part hpart => (ih hpart).imp .shared
      · refine List.pairwise_iff_forall_sublist.2 ?_
        intro next next' hsublist part part' hpart hpart' p hp q hq
        obtain ⟨-, hp, -⟩ := (mem_pathsThrough hpart).1 hp
        obtain ⟨-, hq, -⟩ := (mem_pathsThrough hpart').1 hq
        exact hp.precedes hq hsublist

/-! ## The tests that are made -/

/-- While paths of `remaining` steps are looked for, a step is tested behind a path that has passed. -/
structure TriesBehind (b : Bundle) (test : Nat → Step b → Except ε Bool) (remaining : Nat)
    (onPath : List b.NodeIx) (step : Step b) (path : List (Step b)) (s : Step b) : Prop where
  onward : b.Onward onPath step (path ++ [s])
  short : path.length < remaining
  passes : Passes test onPath.length path

section Tries

variable {path : List (Step b)} {s : Step b}

/-- The first step itself is tested, unless its node is on the path so far. -/
theorem triesBehind_nil_iff :
    b.TriesBehind test (remaining + 1) onPath step [] s ↔ s = step ∧ step.node ∉ onPath := by
  constructor
  · rintro ⟨honward, -, -⟩
    obtain ⟨rfl, hnew, -⟩ := onward_cons_iff.1 honward
    exact ⟨rfl, hnew⟩
  · rintro ⟨rfl, hnew⟩
    exact ⟨onward_cons_iff.2 ⟨rfl, hnew, .inl rfl⟩, Nat.succ_pos _, by simp [Passes]⟩

/-- Behind a first step that passes, the tests are those of its next steps. -/
theorem triesBehind_cons_iff {first : Step b} :
    b.TriesBehind test (remaining + 1) onPath step (first :: path) s ↔
      first = step ∧ step.node ∉ onPath ∧ test onPath.length step = .ok true ∧
        ∃ next ∈ b.stepsFrom step.node,
          b.TriesBehind test remaining (step.node :: onPath) (Step.along next.1 next.2) path s := by
  constructor
  · rintro ⟨honward, hshort, hpasses⟩
    obtain ⟨rfl, hnew, hnil | ⟨next, hnext, honward⟩⟩ := onward_cons_iff.1 honward
    · simp at hnil
    · obtain ⟨hpassed, hpasses⟩ := passes_cons_iff.1 hpasses
      exact ⟨rfl, hnew, hpassed, next, hnext, honward, Nat.lt_of_succ_lt_succ hshort, hpasses⟩
  · rintro ⟨rfl, hnew, hpassed, next, hnext, honward, hshort, hpasses⟩
    exact ⟨onward_cons_iff.2 ⟨rfl, hnew, .inr ⟨next, hnext, honward⟩⟩, Nat.succ_lt_succ hshort,
      passes_cons_iff.2 ⟨hpassed, hpasses⟩⟩

/-- The position of a step behind a path, counted in two ways. -/
theorem length_cons_add (n : b.NodeIx) (onPath : List b.NodeIx) (first : Step b)
    (path : List (Step b)) :
    (n :: onPath).length + path.length = onPath.length + (first :: path).length := by
  rw [List.length_cons, List.length_cons, Nat.add_right_comm, Nat.add_assoc]

/-- When paths are found, no test has failed. -/
theorem exists_ok_of_triesBehind {paths : List (List (Step b))}
    (h : b.pathsThrough test remaining onPath step = .ok paths)
    (htries : b.TriesBehind test remaining onPath step path s) :
    ∃ passed, test (onPath.length + path.length) s = .ok passed := by
  induction remaining generalizing onPath step paths path with
  | zero => exact absurd htries.short (Nat.not_lt_zero _)
  | succ remaining ih =>
    have hcases : b.Outcome test remaining onPath step _ := outcome
    rw [h] at hcases
    cases path with
    | nil =>
      obtain ⟨rfl, hnew⟩ := triesBehind_nil_iff.1 htries
      cases hcases with
      | old hold => exact (hnew hold).elim
      | refused hrefused => exact ⟨false, hrefused⟩
      | ended _ hpassed | extended _ hpassed => exact ⟨true, hpassed⟩
    | cons first path =>
      obtain ⟨rfl, hnew, hpassed, next, hnext, htries⟩ := triesBehind_cons_iff.1 htries
      rw [← length_cons_add first.node]
      cases hcases with
      | old hold => exact (hnew hold).elim
      | refused hrefused =>
        rw [hpassed] at hrefused
        cases hrefused
      | ended _ _ hlast => exact absurd (hlast ▸ htries.short) (Nat.not_lt_zero _)
      | extended _ _ _ hfound =>
        obtain ⟨part, hpart⟩ := exists_ok_of_collect hfound next hnext
        exact ih hpart htries

/-- A failure is that of the first test that fails. -/
theorem exists_first_of_pathsThrough_eq_error {err : ε}
    (h : b.pathsThrough test remaining onPath step = .error err) :
    ∃ path s, b.TriesBehind test remaining onPath step path s ∧
      test (onPath.length + path.length) s = .error err ∧
      ∀ path' s' err', b.TriesBehind test remaining onPath step path' s' →
        test (onPath.length + path'.length) s' = .error err' →
          path' ++ [s'] = path ++ [s] ∨ b.Precedes (path ++ [s]) (path' ++ [s']) := by
  induction remaining generalizing onPath step with
  | zero => cases h
  | succ remaining ih =>
    have hcases : b.Outcome test remaining onPath step _ := outcome
    rw [h] at hcases
    cases hcases with
    | failed hnew hfails =>
      refine ⟨[], step, triesBehind_nil_iff.2 ⟨rfl, hnew⟩, hfails, fun path' s' err' htries _ => ?_⟩
      cases path' with
      | nil =>
        obtain ⟨rfl, -⟩ := triesBehind_nil_iff.1 htries
        exact .inl rfl
      | cons first path' =>
        -- nothing is tested behind a step that has failed
        obtain ⟨-, -, hpassed, -⟩ := triesBehind_cons_iff.1 htries
        rw [hfails] at hpassed
        cases hpassed
    | stopped hnew hpassed hstops =>
      obtain ⟨before, next, after, hsplit, hfails, hbefore⟩ := exists_of_collect_eq_error hstops
      obtain ⟨path, s, htries, hfails, hfirst⟩ := ih hfails
      have hnext : next ∈ b.stepsFrom step.node := by simp [hsplit]
      rw [length_cons_add _ _ step] at hfails
      refine ⟨step :: path, s, triesBehind_cons_iff.2 ⟨rfl, hnew, hpassed, next, hnext, htries⟩,
        hfails, fun path' s' err' htries' hfails' => ?_⟩
      cases path' with
      | nil =>
        obtain ⟨rfl, -⟩ := triesBehind_nil_iff.1 htries'
        rw [List.length_nil, Nat.add_zero, hpassed] at hfails'
        cases hfails'
      | cons first path' =>
        obtain ⟨rfl, -, -, next', hnext', htries'⟩ := triesBehind_cons_iff.1 htries'
        rw [← length_cons_add first.node] at hfails'
        rw [hsplit] at hnext'
        rcases List.mem_append.1 hnext' with hmem | hmem
        · -- the steps before go through without a failure
          obtain ⟨part, hpart⟩ := hbefore next' hmem
          obtain ⟨passed, hpassed⟩ := exists_ok_of_triesBehind hpart htries'
          rw [hfails'] at hpassed
          cases hpassed
        · rcases List.mem_cons.1 hmem with rfl | hmem
          · exact (hfirst path' s' err' htries' hfails').imp (congrArg (first :: ·)) .shared
          · refine .inr (htries.onward.precedes htries'.onward ?_)
            rw [hsplit]
            exact ((List.singleton_sublist.2 hmem).cons_cons next).trans
              (List.sublist_append_right _ _)

end Tries

/-! ## Exactness -/

/-- A step is tested behind a path from the start that is shorter than `depth` and has passed. -/
structure Tries (b : Bundle) (test : Nat → Step b → Except ε Bool) (depth : Nat) (start : b.NodeIx)
    (path : List (Step b)) (s : Step b) : Prop where
  linear : b.Linear (Step.start start) (path ++ [s])
  short : path.length < depth
  passes : Passes test 0 path

/-- The search calls the test with a position and a step: it would notice if the test failed there. -/
def Calls (b : Bundle) (test : Nat → Step b → Except ε Bool) (depth : Nat) (start : b.NodeIx) (i : Nat)
    (s : Step b) : Prop :=
  b.linearPaths (fun j t => failingAt (fun q : Nat × Step b => test q.1 q.2) (i, s) (j, t)) depth start =
    .error none

variable {depth : Nat} {start : b.NodeIx}

/-- The tests of a search are those behind nothing. -/
theorem tries_iff {path : List (Step b)} {s : Step b} :
    b.Tries test depth start path s ↔ b.TriesBehind test depth [] (Step.start start) path s :=
  ⟨fun ⟨hlinear, hshort, hpasses⟩ => ⟨onward_nil_iff.2 hlinear, hshort, hpasses⟩,
    fun ⟨honward, hshort, hpasses⟩ => ⟨onward_nil_iff.1 honward, hshort, hpasses⟩⟩

/-- The search fails with the error of the first test that fails. -/
theorem linearPaths_eq_error_iff {err : ε} :
    b.linearPaths test depth start = .error err ↔
      ∃ path s, b.Tries test depth start path s ∧ test path.length s = .error err ∧
        ∀ path' s' err', b.Tries test depth start path' s' → test path'.length s' = .error err' →
          path' ++ [s'] = path ++ [s] ∨ b.Precedes (path ++ [s]) (path' ++ [s']) := by
  have hto {err : ε} (h : b.linearPaths test depth start = .error err) :
      ∃ path s, b.Tries test depth start path s ∧ test path.length s = .error err ∧
        ∀ path' s' err', b.Tries test depth start path' s' → test path'.length s' = .error err' →
          path' ++ [s'] = path ++ [s] ∨ b.Precedes (path ++ [s]) (path' ++ [s']) := by
    obtain ⟨path, s, htries, hfails, hfirst⟩ := exists_first_of_pathsThrough_eq_error h
    rw [List.length_nil, Nat.zero_add] at hfails
    refine ⟨path, s, tries_iff.2 htries, hfails, fun path' s' err' htries' hfails' => ?_⟩
    exact hfirst path' s' err' (tries_iff.1 htries') (by rwa [List.length_nil, Nat.zero_add])
  refine ⟨hto, fun ⟨path, s, htries, hfails, hfirst⟩ => ?_⟩
  cases h : b.linearPaths test depth start with
  | ok paths =>
    obtain ⟨passed, hpassed⟩ := exists_ok_of_triesBehind h (tries_iff.1 htries)
    rw [List.length_nil, Nat.zero_add, hfails] at hpassed
    cases hpassed
  -- both tests are first among those that fail, so they are one
  | error err' =>
    obtain ⟨path', s', htries', hfails', hfirst'⟩ := hto h
    rcases hfirst path' s' err' htries' hfails' with heq | hbefore
    · obtain ⟨rfl, hs⟩ := List.append_inj' heq rfl
      obtain rfl := List.singleton_inj.1 hs
      rw [Except.error.inj (hfails'.symm.trans hfails)]
    · rcases hfirst' path s err htries hfails with heq | hafter
      · rw [heq] at hbefore
        exact (hbefore.asymm hbefore).elim
      · exact (hbefore.asymm hafter).elim

/-- **The enumeration is exact.** With no depth there is nothing to find. The search succeeds unless one of
the tests that are made fails. Then it lists just the paths of `depth` steps from the start that pass, each
once and in order. A failure is that of the first test that fails. The test is never called with a position
from the depth on. -/
theorem linearPaths_exact (b : Bundle) (test : Nat → Step b → Except ε Bool) (depth : Nat)
    (start : b.NodeIx) :
    b.linearPaths test 0 start = .ok [] ∧
      ((∀ path s, b.Tries test depth start path s → ∃ passed, test path.length s = .ok passed) →
        ∃ paths, b.linearPaths test depth start = .ok paths) ∧
      (∀ paths, b.linearPaths test depth start = .ok paths →
        (∀ path, path ∈ paths ↔
          path.length = depth ∧ b.Linear (Step.start start) path ∧ Passes test 0 path) ∧
        paths.Nodup ∧ paths.Pairwise b.Precedes) ∧
      (∀ err, b.linearPaths test depth start = .error err ↔
        ∃ path s, b.Tries test depth start path s ∧ test path.length s = .error err ∧
          ∀ path' s' err', b.Tries test depth start path' s' → test path'.length s' = .error err' →
            path' ++ [s'] = path ++ [s] ∨ b.Precedes (path ++ [s]) (path' ++ [s'])) ∧
      ∀ i s, b.Calls test depth start i s → i < depth := by
  refine ⟨rfl, fun hpass => ?_, fun paths hpaths => ⟨fun path => ?_, ?_, ?_⟩,
    fun err => linearPaths_eq_error_iff, fun i s hcalls => ?_⟩
  · cases h : b.linearPaths test depth start with
    | ok paths => exact ⟨paths, rfl⟩
    | error err =>
      obtain ⟨path, s, htries, hfails, -⟩ := linearPaths_eq_error_iff.1 h
      obtain ⟨passed, hpassed⟩ := hpass path s htries
      rw [hfails] at hpassed
      cases hpassed
  · rw [mem_pathsThrough hpaths, onward_nil_iff, List.length_nil]
  · exact (pairwise_pathsThrough hpaths).imp fun hbefore heq => (heq ▸ hbefore).asymm (heq ▸ hbefore)
  · exact pairwise_pathsThrough hpaths
  · obtain ⟨path, t, htries, hfails, -⟩ := linearPaths_eq_error_iff.1 hcalls
    obtain ⟨rfl, rfl⟩ := Prod.mk.inj (failingAt_eq_error_none_iff.1 hfails)
    exact htries.short

/-- Edges and nodes of the paths of three steps: edges side by side make different paths. -/
example :
    (Sample.triangle.linearPaths (fun _ _ => (.ok true : Except Unit Bool)) 3 (0 : Fin 3)).map
        (·.map (·.map fun s => (s.edge.map Fin.val, s.node.val))) =
      .ok [[(none, 0), (some 0, 1), (some 2, 2)], [(none, 0), (some 1, 1), (some 2, 2)],
        [(none, 0), (some 3, 2), (some 2, 1)]] := by
  decide

end ProvenanceTrail.Bundle
