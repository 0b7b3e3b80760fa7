import ProvenanceTrail.Proofs.Search.Claiming
import ProvenanceTrail.Proofs.Trust.Verdicts
import ProvenanceTrail.Search.Engine

/-!
# Interleavings

The visits of a search run side by side. A visit touches the session three times: when it is claimed, when
its reference turns out to lead to another version, and when it ends. In between it talks to services and
to the verifier, which other searches use as well. `SearchState` holds a session with the visits under
way, and `SearchState.move` takes one of them a step further; a `Run` is any order of moves, with no bound
on the visits under way. What every run satisfies holds for every scheduler, whatever its concurrency.

`Change` is `move` turned around: one constructor for each thing that can happen, with all that is known
then. Proofs about runs go by cases on it.
-/

namespace ProvenanceTrail

/-- What is left to be fetched of a version: the version itself, unless it was fetched on the way. -/
def Located.missing (l : Located) : List QualifiedName :=
  if l.prefetched.isSome then [] else [l.bundleId]

/-- How far a visit has come. -/
inductive Stage where
  /-- the reference has not been followed yet -/
  | claimed
  /-- the reference led to a version that the visit may search -/
  | located (l : Located)
  /-- all that is left is to tell the session -/
  | settled (outcome : Except BranchError Visit)

/-- A visit under way: its item, the other version that it has claimed if it has, and its stage. -/
structure OpenVisit where
  item : SearchItem
  version : Option QualifiedName
  stage : Stage

namespace OpenVisit

/-- A visit that has just been started. -/
def start (item : SearchItem) : OpenVisit := ⟨item, none, .claimed⟩

/-- The bundles that a visit holds. -/
def ids (v : OpenVisit) : List QualifiedName := v.item.bundleId :: v.version.toList

/-- The bundles that a visit holds, each with the item through which it holds them. -/
def claims (v : OpenVisit) : List (QualifiedName × SearchItem) := v.ids.map fun id => (id, v.item)

end OpenVisit

/-- A session, the visits under way, and the verifier that they share with other searches. -/
structure SearchState where
  session : Session
  running : List OpenVisit
  verifier : Verifier

/-- The items that wait or are being visited. -/
def SearchState.items (st : SearchState) : List SearchItem :=
  st.session.frontier.items ++ st.running.map OpenVisit.item

/-- A search before its first visit. -/
def SearchState.initial (s : Session) (v : Verifier) : SearchState := ⟨s, [], v⟩

/-- What may happen next; visits under way are told apart by their position. -/
inductive Move where
  | claim
  /-- a visit follows its reference -/
  | follow (i : Nat)
  /-- a visit searches the version that its reference led to -/
  | examine (i : Nat)
  /-- a visit ends -/
  | finish (i : Nat)
  /-- another search uses the verifier -/
  | elsewhere (call : VerifierCall)

/-- What has happened. -/
inductive Event where
  /-- an item was claimed, after some were passed over -/
  | claimed (passed : Nat) (item : SearchItem)
  /-- an item was outranked and went back, after some were passed over -/
  | returned (passed : Nat) (item : SearchItem)
  /-- no item was left to be claimed -/
  | exhausted
  /-- a reference was followed, and the version claimed if it is another one -/
  | followed (item : SearchItem) (version : Option QualifiedName)
  | examined (item : SearchItem) (l : Located)
  /-- a visit ended, and of the items that it discovered some were admitted to the frontier -/
  | ended (item : SearchItem) (version : Option QualifiedName) (outcome : Except BranchError Visit)
    (admitted : List SearchItem)
  | elsewhere

namespace Event

/-- The item that was claimed. -/
def claimed? : Event → Option SearchItem
  | .claimed _ item => some item
  | _ => none

/-- An event claims an item just if it is its claim. -/
theorem claimed?_eq_some_iff {e : Event} {y : SearchItem} :
    e.claimed? = some y ↔ ∃ n, e = .claimed n y := by
  cases e <;> simp [claimed?]

/-- The bundles that were claimed, each with the item through which it was. -/
def claims : Event → List (QualifiedName × SearchItem)
  | .claimed _ item => [(item.bundleId, item)]
  | .followed item version => version.toList.map fun id => (id, item)
  | _ => []

/-- The items that a visit discovered, whether or not they were admitted. -/
def discovered : Event → List SearchItem
  | .ended _ _ outcome _ => Visit.children outcome
  | _ => []

/-- The bundles that were fetched, in their order. -/
def fetches (f : Federation) (p : SearchPlan) : Event → List QualifiedName
  | .followed item _ => (f.locate p.preference item).fetched
  | .examined _ l => l.missing
  | _ => []

end Event

/-- The bundles that were fetched in a run, in their order. -/
def fetchesOf (f : Federation) (p : SearchPlan) (es : List Event) : List QualifiedName :=
  es.flatMap (Event.fetches f p)

/-- The fetches of two stretches of events are those of either, in order. -/
@[simp] theorem fetchesOf_append (f : Federation) (p : SearchPlan) (es es' : List Event) :
    fetchesOf f p (es ++ es') = fetchesOf f p es ++ fetchesOf f p es' := List.flatMap_append

/-- A visit that follows its reference. A reference to another version makes the visit claim that version
too; if that is claimed already, the visit is redirected. -/
def Federation.followReference (f : Federation) (p : SearchPlan) (s : Session) (item : SearchItem) :
    OpenVisit × Session :=
  match (f.locate p.preference item).value with
  | .error e => (⟨item, none, .settled (.error e)⟩, s)
  | .ok l =>
    if l.bundleId = item.bundleId then (⟨item, none, .located l⟩, s)
    else
      match s.claimVersion? l.bundleId item with
      | some s => (⟨item, some l.bundleId, .located l⟩, s)
      | none => (⟨item, none, .settled (.ok (.redirected l.bundleId))⟩, s)

namespace SearchState

/-- The state after a claim has been tried, and what came of it. -/
def claim (f : Federation) (st : SearchState) : Event × SearchState :=
  let waiting := st.session.frontier.items
  -- how many items were passed over shows in how many are left
  match st.session.claimNext f.settings.maxVisited with
  | (some item, s) =>
    (.claimed (waiting.length - s.frontier.items.length - 1) item,
      { st with session := s, running := st.running ++ [.start item] })
  | (none, s) =>
    let passed := waiting.length - s.frontier.items.length
    (match waiting[passed]? with
      | some item => .returned passed item
      | none => .exhausted, { st with session := s })

/-- The state after the end of a visit, which is no longer under way. -/
def finish (st : SearchState) (running : List OpenVisit) (item : SearchItem)
    (version : Option QualifiedName) (outcome : Except BranchError Visit) : Event × SearchState :=
  let s := st.session.complete item.bundleId version outcome
  (.ended item version outcome (s.unclaimed (Visit.children outcome)),
    { st with session := s, running := running })

/-- Makes a move, if it is possible. -/
def move (f : Federation) (p : SearchPlan) (st : SearchState) : Move → Option (Event × SearchState)
  | .claim => some (st.claim f)
  | .follow i =>
    match st.running[i]? with
    | some ⟨item, none, .claimed⟩ =>
      let (v, s) := f.followReference p st.session item
      some (.followed item v.version, { st with session := s, running := st.running.set i v })
    | _ => none
  | .examine i =>
    match st.running[i]? with
    | some ⟨item, version, .located l⟩ =>
      let answer := (f.search p item l st.verifier).value
      some (.examined item l,
        { st with
          running := st.running.set i ⟨item, version, .settled answer.1⟩, verifier := answer.2 })
    | _ => none
  | .finish i =>
    match st.running[i]? with
    | some ⟨item, version, .settled outcome⟩ =>
      some (st.finish (st.running.eraseIdx i) item version outcome)
    | _ => none
  | .elsewhere call => some (.elsewhere, { st with verifier := call.run st.verifier })

/-- Makes moves one after the other, as long as they are possible. -/
def play (f : Federation) (p : SearchPlan) (st : SearchState) :
    List Move → Option (List Event × SearchState)
  | [] => some ([], st)
  | m :: moves =>
    match st.move f p m with
    | none => none
    | some (e, st) => (play f p st moves).map fun r => (e :: r.1, r.2)

end SearchState

/-- The runs of a search from a state, with what happens in them. -/
inductive Run (f : Federation) (p : SearchPlan) (start : SearchState) :
    List Event → SearchState → Prop where
  | nil : Run f p start [] start
  | step {es : List Event} {st st' : SearchState} {m : Move} {e : Event} (run : Run f p start es st)
      (h : st.move f p m = some (e, st')) : Run f p start (es ++ [e]) st'

variable {f : Federation} {p : SearchPlan}

namespace Run

/-- Two runs make one. -/
theorem append {start st st' : SearchState} {es es' : List Event} (h : Run f p start es st)
    (h' : Run f p st es' st') : Run f p start (es ++ es') st' := by
  induction h' with
  | nil => simpa using h
  | step _ hmove ih =>
    rw [← List.append_assoc]
    exact .step ih hmove

/-- Moves made one after the other are a run. -/
theorem of_play {moves : List Move} {start st : SearchState} {es : List Event}
    (h : start.play f p moves = some (es, st)) : Run f p start es st := by
  induction moves generalizing start es with
  | nil =>
    obtain ⟨rfl, rfl⟩ : [] = es ∧ start = st := by simpa [SearchState.play] using h
    exact .nil
  | cons m moves ih =>
    rw [SearchState.play] at h
    cases hmove : start.move f p m with
    | none => simp [hmove] at h
    | some next =>
      obtain ⟨e, mid⟩ := next
      rw [hmove] at h
      obtain ⟨⟨es', st'⟩, hplay, heq⟩ := Option.map_eq_some_iff.1 h
      obtain ⟨rfl, rfl⟩ : e :: es' = es ∧ st' = st := by simpa using heq
      exact (Run.step .nil hmove).append (ih hplay)

end Run

/-! ## What a move changes -/

/-- What can happen in a state. -/
inductive Change (f : Federation) (p : SearchPlan) (st : SearchState) : Event → SearchState → Prop where
  | claimed {passed rest : List SearchItem} {t : Session} {item : SearchItem}
      (passes : Session.Passes f.settings.maxVisited st.session passed t)
      (front : t.frontier.items = item :: rest) (free : t.isClaimed item.bundleId = false)
      (top : t.isOutranked item = false)
      (within : f.settings.maxVisited.filter (· ≤ t.started) = none) :
      Change f p st (.claimed passed.length item)
        { st with
          session :=
            { (t.withItems rest).claim item.bundleId item with started := t.started + 1 }
          running := st.running ++ [.start item] }
  | returned {passed rest : List SearchItem} {t : Session} {item : SearchItem}
      (passes : Session.Passes f.settings.maxVisited st.session passed t)
      (front : t.frontier.items = item :: rest) (free : t.isClaimed item.bundleId = false)
      (outranked : t.isOutranked item = true) :
      Change f p st (.returned passed.length item)
        { st with session := t.withItems (Frontier.insert item rest) }
  | exhausted {passed : List SearchItem} {t : Session}
      (passes : Session.Passes f.settings.maxVisited st.session passed t)
      (empty : t.frontier.items = []) : Change f p st .exhausted { st with session := t }
  | followed {before after : List OpenVisit} {item : SearchItem} {v : OpenVisit} {s : Session}
      (running : st.running = before ++ .start item :: after)
      (result : f.followReference p st.session item = (v, s)) :
      Change f p st (.followed item v.version)
        { st with session := s, running := before ++ v :: after }
  | examined {before after : List OpenVisit} {item : SearchItem} {version : Option QualifiedName}
      {l : Located} (running : st.running = before ++ ⟨item, version, .located l⟩ :: after) :
      Change f p st (.examined item l)
        { st with
          running :=
            before ++ ⟨item, version, .settled (f.search p item l st.verifier).value.1⟩ :: after
          verifier := (f.search p item l st.verifier).value.2 }
  | ended {before after : List OpenVisit} {item : SearchItem} {version : Option QualifiedName}
      {outcome : Except BranchError Visit}
      (running : st.running = before ++ ⟨item, version, .settled outcome⟩ :: after) :
      Change f p st
        (.ended item version outcome
          ((st.session.complete item.bundleId version outcome).unclaimed (Visit.children outcome)))
        { st with
          session := st.session.complete item.bundleId version outcome
          running := before ++ after }
  | elsewhere (call : VerifierCall) :
      Change f p st .elsewhere { st with verifier := call.run st.verifier }

/-- An element of a list with what stands before and after it. -/
theorem exists_split_of_getElem? {α : Type} {l : List α} {i : Nat} {a : α} (h : l[i]? = some a) :
    ∃ before after, l = before ++ a :: after ∧ (∀ b, l.set i b = before ++ b :: after) ∧
      l.eraseIdx i = before ++ after := by
  obtain ⟨hi, rfl⟩ := List.getElem?_eq_some_iff.1 h
  refine ⟨l.take i, l.drop (i + 1), ?_, ?_, List.eraseIdx_eq_take_drop_succ l i⟩
  · rw [← List.drop_eq_getElem_cons hi, List.take_append_drop]
  · intro b
    rw [List.set_eq_take_append_cons_drop, if_pos hi]

namespace SearchState

/-- All items that wait carry outcomes for the checks of the session. -/
def Fits (st : SearchState) : Prop :=
  ∀ item ∈ st.session.frontier.items, item.layout = st.session.frontier.checks

/-- A claim is a change. -/
theorem claim_change {st : SearchState} (hfits : st.Fits) :
    Change f p st (st.claim f).1 (st.claim f).2 := by
  obtain ⟨passed, t, hpasses, hends⟩ := st.session.claimNext_spec f.settings.maxVisited
  have hitems := hpasses.items_eq
  unfold claim
  cases hnext : st.session.claimNext f.settings.maxVisited with
  | mk next s =>
    rw [hnext] at hends
    cases hends with
    | exhausted empty =>
      -- all items were passed over, so none stands at the position after them
      have hpassed : st.session.frontier.items[st.session.frontier.items.length -
          t.frontier.items.length]? = none := by
        rw [empty]
        simp
      simp only [hpassed]
      exact .exhausted hpasses empty
    | @returned item rest front free outranked =>
      rw [front] at hitems
      -- the item that goes back is taken in, since it has waited before
      have hlayout : item.layout = t.frontier.checks := by
        rw [hpasses.checks_eq]
        exact hfits item (by simp [hitems])
      have henqueue := (t.withItems rest).enqueue_of_layout hlayout
      have hlength : st.session.frontier.items.length -
          ((t.withItems rest).enqueue item).frontier.items.length = passed.length := by
        have hperm := (Frontier.insert_perm item rest).length_eq
        rw [henqueue, hitems]
        simp only [Session.withItems, List.length_append, List.length_cons] at hperm ⊢
        omega
      have hpassed : st.session.frontier.items[passed.length]? = some item := by
        rw [hitems]
        simp
      simp only [hlength, hpassed]
      rw [henqueue, Session.withItems_withItems]
      exact .returned hpasses front free outranked
    | @claimed item rest front free top within =>
      have hlength : st.session.frontier.items.length - rest.length - 1 = passed.length := by
        rw [hitems, front, List.length_append, List.length_cons]
        omega
      have hevent := Change.claimed (p := p) hpasses front free top within
      rw [← hlength] at hevent
      exact hevent

/-- A move that is possible is one of the changes. -/
theorem move_change {st st' : SearchState} {m : Move} {e : Event} (hfits : st.Fits)
    (h : st.move f p m = some (e, st')) : Change f p st e st' := by
  cases m with
  | claim =>
    obtain ⟨rfl, rfl⟩ : (st.claim f).1 = e ∧ (st.claim f).2 = st' := by
      simpa [move, Prod.ext_iff] using h
    exact claim_change hfits
  | follow i =>
    simp only [move] at h
    split at h
    · rename_i item hvisit
      obtain ⟨before, after, hrunning, hset, -⟩ := exists_split_of_getElem? hvisit
      obtain ⟨rfl, rfl⟩ := Prod.mk.inj (Option.some.inj h)
      rw [hset]
      exact .followed hrunning rfl
    · cases h
  | examine i =>
    simp only [move] at h
    split at h
    · rename_i item version l hvisit
      obtain ⟨before, after, hrunning, hset, -⟩ := exists_split_of_getElem? hvisit
      obtain ⟨rfl, rfl⟩ := Prod.mk.inj (Option.some.inj h)
      rw [hset]
      exact .examined hrunning
    · cases h
  | finish i =>
    -- the position only tells which visit ends; what is left are the others in their order
    simp only [move] at h
    split at h
    · rename_i item version outcome hvisit
      obtain ⟨before, after, hrunning, -, herase⟩ := exists_split_of_getElem? hvisit
      obtain ⟨rfl, rfl⟩ := Prod.mk.inj (Option.some.inj h)
      rw [herase]
      exact .ended hrunning
    · cases h
  | elsewhere call =>
    obtain ⟨rfl, rfl⟩ := Prod.mk.inj (Option.some.inj h)
    exact .elsewhere call

end SearchState

end ProvenanceTrail
