import Mathlib.Algebra.GroupWithZero.Nat
import ProvenanceTrail.Proofs.Search.Coverage

/-!
# The loop of a search

A search repeats two things: it starts visits as far as it may, and then waits until one of those under way
has ended, whichever that is. `Loop` is any number of such rounds. It ends when there is no visit to wait
for. The three things to know about that are these.

* It does end. Every round ends a visit of another bundle, and the bundles that items can be for are named
  beforehand, by the request and by the nodes of hosted bundles (`Services.referenced`).
* Until then it goes on: whichever visit is waited for has at most three moves left.
* It does not end too early. An item is held back only while a visit under way outranks it, so with no
  visit under way nothing is left waiting (`Fills.drained`).

What the outcomes then cover is `Engine.covers_of_drained`. The rounds of `Engine.search` are such a loop, and
its bound on the number of rounds is never reached.
-/

namespace ProvenanceTrail

variable {f : Federation} {p : SearchPlan}

/-! ## The bundles that a search can come across -/

/-- The bundles that the nodes of hosted bundles name as referenced. -/
def Services.referenced (s : Services) : List QualifiedName :=
  s.hosted.flatMap fun h =>
    h.2.bundle.nodes.toList.filterMap fun n => n.nameValue? Vocabulary.referencedBundleId

/-- There are at most as many of them as hosted bundles have nodes. -/
theorem Services.length_referenced_le (s : Services) (n : Nat) :
    n + s.referenced.length ≤ s.hosted.foldl (fun n h => n + h.2.bundle.nodes.size) n := by
  rw [referenced]
  generalize s.hosted = hosted
  induction hosted generalizing n with
  | nil => simp
  | cons h rest ih =>
    rw [List.flatMap_cons, List.length_append, List.foldl_cons]
    refine Nat.le_trans ?_ (ih (n + h.2.bundle.nodes.size))
    have hnodes : (h.2.bundle.nodes.toList.filterMap fun n =>
        n.nameValue? Vocabulary.referencedBundleId).length ≤ h.2.bundle.nodes.size :=
      List.length_filterMap_le _ _
    omega

/-- A connector that is discovered is the record of a node. -/
theorem exists_node_of_discoverConnectors {view : BundleView} {direction : Option Direction}
    {connectors : List Connector} (h : discoverConnectors view direction = .ok connectors) {c : Connector}
    (hc : c ∈ connectors) : ∃ n, c = Connector.ofNode view.bundle n := by
  unfold discoverConnectors at h
  simp only at h
  split at h
  · cases h
  · rename_i predicate _
    cases hfound : (Findable.fittingNodes (some (.leaf predicate))
        (some (.derivationPath (direction.map Direction.isBackward)))).find view with
    | error e => simp [hfound, bind, Except.bind] at h
    | ok found =>
      rw [hfound] at h
      obtain rfl := Except.ok.inj h
      obtain ⟨n, -, rfl⟩ := List.mem_map.1 hc
      exact ⟨n, rfl⟩

/-- The bundles that the connectors of an expanded bundle name are among those that nodes of hosted bundles
name. -/
theorem Expansion.Names.mem_referenced {x : Expansion f p} {id : QualifiedName} (h : x.Names id) :
    id ∈ f.services.referenced := by
  obtain ⟨connectors, c, hconnectors, hc, hid⟩ := h
  obtain ⟨n, rfl⟩ := exists_node_of_discoverConnectors hconnectors hc
  have hbundle : x.view.bundle = x.hosted.bundle := by
    have henters := x.enters
    unfold Bundle.enter at henters
    simp only at henters
    split at henters
    · rw [← Except.ok.inj henters]
    · cases henters
  obtain ⟨hhosted, -⟩ := Services.mem_hosted_of_find x.hosts
  refine List.mem_flatMap.2 ⟨_, hhosted, List.mem_filterMap.2 ⟨x.view.bundle.node n, ?_, hid⟩⟩
  show x.view.bundle.node n ∈ x.hosted.bundle.nodes.toList
  rw [← hbundle]
  exact Array.getElem_mem_toList _

/-! ## How many moves there are -/

namespace Event

/-- Whether a visit has ended. -/
def isEnd : Event → Bool
  | .ended _ _ _ _ => true
  | _ => false

/-- Whether a visit has made a move. -/
def isStep : Event → Bool
  | .followed _ _ | .examined _ _ | .ended _ _ _ _ => true
  | _ => false

end Event

/-- How many moves a visit has left at most. -/
def OpenVisit.movesLeft (v : OpenVisit) : Nat :=
  match v.stage with
  | .claimed => 3
  | .located _ => 2
  | .settled _ => 1

/-- A visit that has followed its reference has two moves left at most. -/
theorem followReference_movesLeft {s s' : Session} {item : SearchItem} {v : OpenVisit}
    (h : f.followReference p s item = (v, s')) : v.movesLeft ≤ 2 := by
  cases followReference_follows h <;> simp [OpenVisit.movesLeft]

/-- The moves that visits have left, with one of them set apart. -/
theorem sum_movesLeft_split (v : OpenVisit) (before after : List OpenVisit) :
    ((before ++ v :: after).map OpenVisit.movesLeft).sum =
      v.movesLeft + ((before ++ after).map OpenVisit.movesLeft).sum := by
  rw [List.map_append, List.map_append, List.map_cons, List.sum_append, List.sum_append, List.sum_cons]
  omega

/-- A change makes a visit more for the item that it claims, and one less for the visit that it ends. The
moves left grow by three with a claim, and shrink with every move of a visit. -/
theorem Change.count {st st' : SearchState} {e : Event} (h : Change f p st e st') :
    st'.running.length + (if e.isEnd then 1 else 0) =
        st.running.length + e.claimed?.toList.length ∧
      (st'.running.map OpenVisit.movesLeft).sum + (if e.isStep then 1 else 0) ≤
        (st.running.map OpenVisit.movesLeft).sum + 3 * e.claimed?.toList.length := by
  cases h with
  | claimed passes front free top within =>
    simp [Event.isEnd, Event.isStep, Event.claimed?, OpenVisit.start, OpenVisit.movesLeft]
  | returned | exhausted | elsewhere => simp [Event.isEnd, Event.isStep, Event.claimed?]
  | @followed before after item v s running result =>
    refine ⟨by simp [running, Event.isEnd, Event.claimed?], ?_⟩
    have hleft := followReference_movesLeft result
    rw [running, sum_movesLeft_split, sum_movesLeft_split]
    show v.movesLeft + _ + 1 ≤ 3 + _
    omega
  | examined running =>
    refine ⟨by simp [running, Event.isEnd, Event.claimed?], ?_⟩
    rw [running, sum_movesLeft_split, sum_movesLeft_split]
    show 1 + _ + 1 ≤ 2 + _
    omega
  | ended running =>
    refine ⟨by simp [running, Event.isEnd, Event.claimed?, Nat.add_assoc], ?_⟩
    rw [running, sum_movesLeft_split]
    exact Nat.le_of_eq (Nat.add_comm _ 1)

/-- The claimed items are those whose visits have ended or are under way, and visits make three moves at
most. -/
structure SearchState.Counted (es : List Event) (st : SearchState) : Prop where
  ended : es.countP Event.isEnd + st.running.length = (claimedItems es).length
  steps : es.countP Event.isStep + (st.running.map OpenVisit.movesLeft).sum ≤
    3 * (claimedItems es).length

/-- Every change keeps the count. -/
theorem SearchState.Counted.change {st st' : SearchState} {es : List Event} {e : Event}
    (h : st.Counted es) (hchange : Change f p st e st') : st'.Counted (es ++ [e]) := by
  obtain ⟨hended, hsteps⟩ := h
  obtain ⟨hrunning, hleft⟩ := hchange.count
  constructor <;>
    rw [List.countP_append, List.countP_singleton, claimedItems_concat, List.length_append] <;>
    omega

namespace Run

variable {start st : SearchState} {es : List Event}

/-- Every run keeps count of the visits that end. -/
theorem counted (hlaid : start.Laid f p) (hstart : start.running = []) (h : Run f p start es st) :
    st.Counted es :=
  h.induct (motive := fun es st => st.Counted es) hlaid
    ⟨by simp [hstart, claimedItems], by simp [hstart]⟩ fun _ _ _ _ _ ih hchange => ih.change hchange

/-- Every item that is claimed is for another bundle. -/
theorem nodup_claimedItems (hlaid : start.Laid f p) (howned : start.Owned) (h : Run f p start es st) :
    ((claimedItems es).map SearchItem.bundleId).Nodup :=
  (h.nodup_claimsOf hlaid howned).sublist (map_claimedItems_sublist es)

end Run

/-- There are no more claims than bundles that items can be for. -/
theorem Engine.length_claimedItems_le {r : SearchRequest} {s : Session} {v : Verifier}
    {es : List Event} {st : SearchState} (hprepare : Engine.prepare f r = .ok (p, s))
    (hrun : Run f p (.initial s v) es st) :
    (claimedItems es).length ≤ f.services.referenced.length + 1 := by
  have hlaid := Engine.laid_of_prepare (v := v) hprepare
  have howned : (SearchState.initial s v).Owned := Engine.owned_of_prepare hprepare .nil
  have hsubset : (claimedItems es).map SearchItem.bundleId ⊆ r.bundleId :: f.services.referenced := by
    intro id hid
    obtain ⟨x, hx, rfl⟩ := List.mem_map.1 hid
    have hcreated := (hrun.items_subset_createdItems hlaid rfl).2 hx
    rcases Engine.referenced_of_mem_createdItems hprepare hrun hcreated with hseed | ⟨y, -, -, hnames⟩
    · exact List.mem_cons.2 (.inl hseed)
    · exact List.mem_cons_of_mem _ hnames.mem_referenced
  have hle := (hrun.nodup_claimedItems hlaid howned).length_le_of_subset hsubset
  rwa [List.length_map, List.length_cons] at hle

/-! ## Rounds -/

/-- Rounds of a search: in each of them visits are started as far as possible, and one visit is waited for,
while the others may move on. -/
inductive Loop (f : Federation) (p : SearchPlan) (start : SearchState) :
    Nat → List Event → SearchState → Prop where
  | start : Loop f p start 0 [] start
  | round {n i : Nat} {es es₁ es₂ : List Event} {st st₁ st₂ : SearchState}
      (before : Loop f p start n es st) (fills : Fills f st es₁ st₁)
      (finishes : Finishes f p i st₁ es₂ st₂) : Loop f p start (n + 1) (es ++ (es₁ ++ es₂)) st₂

/-- A claim ends no visit. -/
theorem SearchState.isEnd_claim (st : SearchState) : (st.claim f).1.isEnd = false := by
  unfold claim
  split
  · rfl
  · simp only
    split <;> rfl

/-- Filling the free places ends no visit. -/
theorem Fills.countP_isEnd {st st' : SearchState} {es : List Event} (h : Fills f st es st') :
    es.countP Event.isEnd = 0 := by
  induction h with
  | full enough => rfl
  | short room nothing => simp [SearchState.isEnd_claim]
  | more room next _ ih => simp [SearchState.isEnd_claim, ih]

/-- When a visit comes to its end, no other one does. -/
theorem Finishes.countP_isEnd {i : Nat} {st st' : SearchState} {es : List Event}
    (h : Finishes f p i st es st') : es.countP Event.isEnd = 1 := by
  obtain @⟨es, mid, st', last, -, inside, ends⟩ := h
  have hnone : es.countP Event.isEnd = 0 := by
    refine List.countP_eq_zero.2 fun e he hend => ?_
    have hinside := inside e he
    cases e <;> simp [Event.isInside, Event.isEnd] at hinside hend
  have hlast : last.isEnd = true := by
    simp only [SearchState.move] at ends
    split at ends
    · obtain ⟨rfl, -⟩ := Prod.mk.inj (Option.some.inj ends)
      rfl
    · cases ends
  rw [List.countP_append, hnone, List.countP_singleton, hlast, if_pos rfl]

namespace Loop

variable {start st : SearchState} {n : Nat} {es : List Event}

/-- The rounds of the loop are a run. -/
theorem run (h : Loop f p start n es st) : Run f p start es st := by
  induction h with
  | start => exact .nil
  | round _ fills finishes ih => exact ih.append (fills.run.append finishes.run)

/-- Every round ends one visit. -/
theorem countP_isEnd (h : Loop f p start n es st) : es.countP Event.isEnd = n := by
  induction h with
  | start => rfl
  | round _ fills finishes ih =>
    rw [List.countP_append, List.countP_append, ih, fills.countP_isEnd, finishes.countP_isEnd]

end Loop

/-! ## The loop goes on -/

/-- An item that a claim brings waits no longer. -/
theorem SearchState.length_frontier_claim {st : SearchState} {item : SearchItem}
    (h : (st.claim f).1.claimed? = some item) :
    (st.claim f).2.session.frontier.items.length < st.session.frontier.items.length := by
  unfold claim at h ⊢
  cases hnext : st.session.claimNext f.settings.maxVisited with
  | mk next s =>
    cases next with
    | none =>
      simp only [hnext] at h
      split at h <;> cases h
    | some item' =>
      simp only
      exact Session.length_lt_of_claimNext hnext

/-- Starting visits comes to an end. -/
theorem exists_fills (st : SearchState) : ∃ es st', Fills f st es st' := by
  induction hwaiting : st.session.frontier.items.length using Nat.strong_induction_on generalizing st with
  | h k ih =>
    by_cases hroom : st.running.length < max f.settings.concurrency 1
    · cases hnext : (st.claim f).1.claimed? with
      | none => exact ⟨_, _, .short hroom hnext⟩
      | some item =>
        have hfewer := SearchState.length_frontier_claim hnext
        rw [hwaiting] at hfewer
        obtain ⟨es, st', hrest⟩ := ih _ hfewer _ rfl
        exact ⟨_, st', .more hroom hnext hrest⟩
    · exact ⟨[], st, .full (Nat.not_lt.1 hroom)⟩

namespace SearchState

variable {st : SearchState} {i : Nat} {item : SearchItem} {version : Option QualifiedName}

/-- A visit whose reference is located can be finished. -/
theorem exists_finishes_of_located {l : Located}
    (h : st.running[i]? = some ⟨item, version, .located l⟩) : ∃ es st', Finishes f p i st es st' := by
  obtain ⟨hi, -⟩ := List.getElem?_eq_some_iff.1 h
  have hmove : st.move f p (.examine i) = some (.examined item l,
      ⟨st.session, st.running.set i ⟨item, version, .settled (f.search p item l st.verifier).value.1⟩,
        (f.search p item l st.verifier).value.2⟩) := by
    simp only [move, h]
  exact ⟨_, _, .cons hmove rfl (.of_settled (List.getElem?_set_self hi))⟩

/-- Any visit under way can be the one that comes to its end next. -/
theorem Laid.exists_finishes (hlaid : st.Laid f p) (hi : i < st.running.length) :
    ∃ es st', Finishes f p i st es st' := by
  have hvisit : st.running[i]? = some st.running[i] := List.getElem?_eq_getElem hi
  cases hstage : st.running[i].stage with
  | claimed =>
    have hstart := (hlaid.founded _ (List.getElem_mem hi)).eq_start hstage
    rw [hstart] at hvisit
    have hmove : st.move f p (.follow i) = some (.followed st.running[i].item
        (f.followReference p st.session st.running[i].item).1.version,
        ⟨(f.followReference p st.session st.running[i].item).2,
          st.running.set i (f.followReference p st.session st.running[i].item).1, st.verifier⟩) := by
      simp only [move, hvisit, OpenVisit.start]
    -- the reference leads somewhere or not; in both cases the visit has been taken a step further
    obtain ⟨es, st', hrest⟩ : ∃ es st', Finishes f p i
        ⟨(f.followReference p st.session st.running[i].item).2,
          st.running.set i (f.followReference p st.session st.running[i].item).1, st.verifier⟩ es st' := by
      generalize hfollowed : f.followReference p st.session st.running[i].item = followed
      obtain ⟨⟨item, version, stage⟩, s⟩ := followed
      have hleft := followReference_movesLeft hfollowed
      cases stage with
      | claimed => simp [OpenVisit.movesLeft] at hleft
      | located l => exact exists_finishes_of_located (List.getElem?_set_self hi)
      | settled outcome => exact ⟨_, _, .of_settled (List.getElem?_set_self hi)⟩
    exact ⟨_, st', .cons hmove rfl hrest⟩
  | located l =>
    rw [show st.running[i] = ⟨st.running[i].item, st.running[i].version, .located l⟩ by
      rw [← hstage]] at hvisit
    exact exists_finishes_of_located hvisit
  | settled outcome =>
    rw [show st.running[i] = ⟨st.running[i].item, st.running[i].version, .settled outcome⟩ by
      rw [← hstage]] at hvisit
    exact ⟨_, _, .of_settled hvisit⟩

end SearchState

/-! ## Nothing is left behind -/

/-- If starting visits leaves no visit under way, it leaves nothing waiting and nothing in flight: an item
can be held back only by a visit. -/
theorem Fills.drained {st st' : SearchState} {es : List Event} (h : Fills f st es st')
    (hlaid : st.Laid f p) (howned : st.Owned) (hdone : st'.running = []) :
    st'.session.frontier.items = [] ∧ st'.session.inFlight = [] := by
  induction h with
  | full enough =>
    rw [hdone] at enough
    simp at enough
  | @short st room nothing =>
    obtain ⟨passed, t, hpasses, hends⟩ := st.session.claimNext_spec f.settings.maxVisited
    unfold SearchState.claim at nothing hdone ⊢
    cases hnext : st.session.claimNext f.settings.maxVisited with
    | mk next s =>
      simp only [hnext] at nothing hdone ⊢
      rw [hnext] at hends
      have hnone (hrunning : st.running = []) : t.inFlight = [] := by
        have hflight := howned.inFlight
        rw [hrunning] at hflight
        exact hpasses.inFlight_eq.trans hflight.eq_nil
      cases hends with
      | exhausted empty => exact ⟨empty, hnone hdone⟩
      | returned front free outranked =>
        -- nothing is in flight that could outrank the item
        simp [Session.isOutranked, hnone hdone] at outranked
      | claimed front free top within => cases nothing
  | more room next _ ih =>
    have hchange : Change f p _ _ _ := SearchState.claim_change hlaid.fits
    exact ih (hlaid.change hchange) (howned.change hchange) hdone

/-! ## Searches -/

namespace Engine

variable {r : SearchRequest} {s : Session} {v : Verifier}

/-- The rounds of the schedule are rounds of the loop. If there are fewer of these than the schedule may go
through, it goes on until there is no visit to wait for. -/
theorem exists_loop_rounds {start : SearchState} {bound n : Nat} {es : List Event}
    (hbound : ∀ n es st, Loop f p start n es st → n < bound) (hresults : f.settings.maxResults = none)
    (fuel : Nat) (e : Engine) (hf : e.federation = f) (s : Session) (running : List SearchItem)
    (hloop : Loop f p start n es ⟨s, running.map .start, e.verifier⟩) (hfuel : bound ≤ n + fuel) :
    ∃ n es st es' v', Loop f p start n es st ∧
      Fills f st es' ⟨(rounds p false fuel e s running).2, [], v'⟩ := by
  induction fuel generalizing e s running n es with
  | zero => exact absurd (hbound _ _ _ hloop) (Nat.not_lt.2 hfuel)
  | succ fuel ih =>
    subst hf
    rw [rounds]
    have hmay : mayStart e.federation.settings false s = true := by simp [mayStart, hresults]
    rw [if_pos hmay]
    obtain ⟨es', hfills⟩ := fills_fillWithin (f := e.federation) s e.verifier s.frontier.size running
      (Nat.le_refl _)
    change Fills e.federation _ es' ⟨(fill e.federation.settings s running).1,
      (fill e.federation.settings s running).2.map .start, e.verifier⟩ at hfills
    generalize fill e.federation.settings s running = filled at hfills
    obtain ⟨s', running'⟩ := filled
    cases running' with
    | nil => exact ⟨n, es, _, es', _, hloop, hfills⟩
    | cons item rest =>
      obtain ⟨⟨es'', hvisit, -⟩, hfederation⟩ := finishes_visit (p := p) s' (rest.map .start) e item
      refine ih _ hfederation _ _ (.round hloop hfills hvisit) ?_
      omega

/-- There are at most as many rounds as bundles that items can be for. -/
theorem rounds_le (hprepare : prepare f r = .ok (p, s)) {n : Nat} {es : List Event} {st : SearchState}
    (hloop : Loop f p (.initial s v) n es st) : n ≤ f.services.referenced.length + 1 := by
  have hended := (hloop.run.counted (laid_of_prepare hprepare) rfl).ended
  rw [hloop.countP_isEnd] at hended
  exact (Nat.le_of_add_right_le hended.le).trans (length_claimedItems_le hprepare hloop.run)

/-- Without a deadline and a limit of results, a report tells of an end of the loop. -/
theorem exists_loop_search {e : Engine} (hprepare : prepare e.federation r = .ok (p, s))
    (hdeadline : e.federation.settings.deadline = none)
    (hresults : e.federation.settings.maxResults = none) :
    ∃ report e', e.search r = (.ok report, e') ∧
      ∃ n es st es' st', Loop e.federation p (.initial s e.verifier) n es st ∧
        Fills e.federation st es' st' ∧ st'.running = [] ∧
        report.visited = st'.session.visited ∧ report.results = st'.session.results := by
  have hlate : (e.federation.settings.deadline == some 0) = false := by rw [hdeadline]; rfl
  -- a round for every bundle that items can be for, and the last one, which ends no visit
  have hfuel : e.federation.services.referenced.length + 2 ≤ 0 + roundBound e.federation := by
    have hle := e.federation.services.length_referenced_le 2
    rw [roundBound]
    omega
  obtain ⟨n, es, st, es', v', hloop, hfills⟩ := exists_loop_rounds
    (fun n es st hloop => Nat.lt_succ_of_le (rounds_le hprepare hloop)) hresults
    (roundBound e.federation) e rfl s [] .start hfuel
  obtain ⟨e', hsearch⟩ : ∃ e', e.search r = (.ok (reportOf e.federation.settings false
      (rounds p false (roundBound e.federation) e s []).2), e') := by
    simp only [search, hprepare, hlate, Prod.mk.injEq, true_and, exists_eq']
  refine ⟨_, e', hsearch, n, es, st, es', _, hloop, hfills, rfl, rfl, ?_⟩
  rw [reportOf, hresults]
  rfl

/-- **A search ends, and has then covered what can be reached.** The loop of a search goes through no more
rounds than there are bundles that items can be for, and its visits make no more than three moves for each
of them. As long as visits are under way, each of them can be the next one to end. When there is none left,
nothing waits and nothing is in flight, and the outcomes are closed under the connectors that are followed
and grounded in the start bundle. Without a deadline and a limit of results, the outcomes and answers that
`Engine.search` reports are those of such an end. -/
theorem ends_and_covers (hprepare : prepare f r = .ok (p, s)) (hdeadline : f.settings.deadline = none)
    (hresults : f.settings.maxResults = none) :
    (∀ n es st, Loop f p (.initial s v) n es st →
      n ≤ f.services.referenced.length + 1 ∧
      es.countP Event.isStep ≤ 3 * (f.services.referenced.length + 1)) ∧
    (∀ n es st, Loop f p (.initial s v) n es st → ∃ es' st', Fills f st es' st' ∧
      ∀ i < st'.running.length, ∃ es'' st'', Finishes f p i st' es'' st'' ∧
        Loop f p (.initial s v) (n + 1) (es ++ (es' ++ es'')) st'') ∧
    (∀ n es st es' st', Loop f p (.initial s v) n es st → Fills f st es' st' → st'.running = [] →
      st'.session.frontier.items = [] ∧ st'.session.inFlight = [] ∧
        Covers f p (.initial s v) (es ++ es') st' r.bundleId) ∧
    ∀ e : Engine, e.federation = f → e.verifier = v → ∃ report e', e.search r = (.ok report, e') ∧
      ∃ n es st es' st', Loop f p (.initial s v) n es st ∧ Fills f st es' st' ∧ st'.running = [] ∧
        report.visited = st'.session.visited ∧ report.results = st'.session.results := by
  have hlaid := laid_of_prepare (v := v) hprepare
  refine ⟨?_, ?_, ?_, ?_⟩
  · intro n es st hloop
    refine ⟨rounds_le hprepare hloop, ?_⟩
    -- every claimed item is visited in three moves at most
    have hsteps := (hloop.run.counted hlaid rfl).steps
    exact (Nat.le_of_add_right_le hsteps).trans
      (Nat.mul_le_mul_left 3 (length_claimedItems_le hprepare hloop.run))
  · intro n es st hloop
    obtain ⟨es', st', hfills⟩ := exists_fills (f := f) st
    refine ⟨es', st', hfills, fun i hi => ?_⟩
    obtain ⟨es'', st'', hfinishes⟩ := ((hloop.run.append hfills.run).laid hlaid).exists_finishes hi
    exact ⟨es'', st'', hfinishes, .round hloop hfills hfinishes⟩
  · intro n es st es' st' hloop hfills hdone
    have hdrained := hfills.drained (hloop.run.laid hlaid) (owned_of_prepare hprepare hloop.run) hdone
    exact ⟨hdrained.1, hdrained.2,
      covers_of_drained hprepare (hloop.run.append hfills.run) hdrained.1 hdone⟩
  · rintro e rfl rfl
    exact exists_loop_search hprepare hdeadline hresults

/-- The search of the small federation ends, and has then covered what can be reached from `A`. -/
theorem sample_ends_and_covers :
    ∃ report e', (Engine.mk Sample.federation Sample.verifier [] []).search Sample.request =
        (.ok report, e') ∧
      ∃ es st, report.visited = st.session.visited ∧
        Covers Sample.federation Sample.plan (.initial Sample.session Sample.verifier) es st
          (Sample.document "A") := by
  obtain ⟨-, -, hend, hsearch⟩ :=
    ends_and_covers (v := Sample.verifier) Sample.prepare_request rfl rfl
  obtain ⟨report, e', hreport, n, es, st, es', st', hloop, hfills, hdone, hvisited, -⟩ :=
    hsearch ⟨Sample.federation, Sample.verifier, [], []⟩ rfl rfl
  exact ⟨report, e', hreport, es ++ es', st', hvisited, (hend _ _ _ _ _ hloop hfills hdone).2.2⟩

end Engine

end ProvenanceTrail
