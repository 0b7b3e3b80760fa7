import ProvenanceTrail.Proofs.Search.Underway

/-!
# Scheduled searches are runs

`Engine.search` goes in rounds: it claims until as many visits are under way as are allowed (`Fills`), and
then takes the oldest visit to its end (`Finishes`). That is one order of moves, so `search_run` gives for
every report a run that leads to the session reported. What holds after every run therefore holds for
every report.
-/

namespace ProvenanceTrail

variable {f : Federation} {p : SearchPlan}

/-! ## The two halves of a round -/

namespace Event

/-- An event between the claims and the end of a visit: a visit moves on, or another search uses the
verifier. -/
def isInside : Event → Bool
  | .followed _ _ | .examined _ _ | .elsewhere => true
  | _ => false

end Event

/-- Visits are started until as many are under way as are allowed, or until a claim brings no item. -/
inductive Fills (f : Federation) : SearchState → List Event → SearchState → Prop where
  | full {st : SearchState} (enough : max f.settings.concurrency 1 ≤ st.running.length) :
      Fills f st [] st
  | short {st : SearchState} (room : st.running.length < max f.settings.concurrency 1)
      (nothing : (st.claim f).1.claimed? = none) : Fills f st [(st.claim f).1] (st.claim f).2
  | more {st st' : SearchState} {es : List Event} {item : SearchItem}
      (room : st.running.length < max f.settings.concurrency 1)
      (next : (st.claim f).1.claimed? = some item) (rest : Fills f (st.claim f).2 es st') :
      Fills f st ((st.claim f).1 :: es) st'

/-- Filling the free places is a run. -/
theorem Fills.run {st st' : SearchState} {es : List Event} (h : Fills f st es st') :
    Run f p st es st' := by
  have hclaim (st : SearchState) : Run f p st [(st.claim f).1] (st.claim f).2 :=
    .step (m := .claim) .nil rfl
  induction h with
  | full enough => exact .nil
  | short room nothing => exact hclaim _
  | more room next _ ih => exact (hclaim _).append ih

/-- Starting visits fetches nothing. -/
theorem Fills.fetchesOf_eq_nil {st st' : SearchState} {es : List Event} (h : Fills f st es st') :
    fetchesOf f p es = [] := by
  have hclaim (st : SearchState) : (st.claim f).1.fetches f p = [] := by
    unfold SearchState.claim
    split
    · rfl
    · simp only
      split <;> rfl
  induction h with
  | full enough => rfl
  | short room nothing => rw [fetchesOf, List.flatMap_singleton, hclaim]
  | more room next _ ih => rw [fetchesOf, List.flatMap_cons, hclaim, ← fetchesOf, ih, List.nil_append]

/-- The visit at a position comes to its end; before that, visits may move on in any order. -/
inductive Finishes (f : Federation) (p : SearchPlan) (i : Nat) (st : SearchState) :
    List Event → SearchState → Prop where
  | intro {es : List Event} {mid st' : SearchState} {e : Event} (moves : Run f p st es mid)
      (inside : ∀ e ∈ es, e.isInside = true) (ends : mid.move f p (.finish i) = some (e, st')) :
      Finishes f p i st (es ++ [e]) st'

namespace Finishes

variable {i : Nat} {st mid st' : SearchState} {es : List Event}

/-- Finishing a visit is a run. -/
theorem run (h : Finishes f p i st es st') : Run f p st es st' := by
  obtain ⟨moves, -, ends⟩ := h
  exact .step moves ends

/-- A visit that has only to tell the session comes to its end at once. -/
theorem of_settled {item : SearchItem} {version : Option QualifiedName}
    {outcome : Except BranchError Visit}
    (h : st.running[i]? = some ⟨item, version, .settled outcome⟩) :
    Finishes f p i st [(st.finish (st.running.eraseIdx i) item version outcome).1]
      (st.finish (st.running.eraseIdx i) item version outcome).2 := by
  have hends : st.move f p (.finish i) = some (st.finish (st.running.eraseIdx i) item version outcome) := by
    simp only [SearchState.move, h]
  exact @Finishes.intro f p i st [] st _ _ .nil (by simp) hends

/-- A visit that comes to its end after it has moved on comes to its end. -/
theorem cons {m : Move} {e : Event} (hmove : st.move f p m = some (e, mid)) (hinside : e.isInside = true)
    (h : Finishes f p i mid es st') : Finishes f p i st (e :: es) st' := by
  obtain @⟨es, mid', st', last, moves, inside, ends⟩ := h
  have hfirst : Run f p st [e] mid := .step .nil hmove
  show Finishes f p i st ((e :: es) ++ [last]) st'
  exact .intro (hfirst.append moves) (by simpa [hinside] using inside) ends

end Finishes

/-- The search of a version fetches what is left to be fetched of it. -/
theorem Federation.search_fetched (item : SearchItem) (l : Located) (v : Verifier) :
    (f.search p item l v).fetched = l.missing := by
  unfold search Located.missing
  cases l.prefetched <;> rfl

namespace Engine

variable (s : Session) (rest : List OpenVisit) (v : Verifier)

/-- A visit of the schedule is one that comes to its end. It keeps a record of what it fetches, and the
federation stays the same. -/
theorem finishes_visit (e : Engine) (item : SearchItem) :
    (∃ es, Finishes e.federation p 0 ⟨s, .start item :: rest, e.verifier⟩ es
        ⟨(e.visit p s item).2, rest, (e.visit p s item).1.verifier⟩ ∧
      (e.visit p s item).1.fetched = e.fetched ++ fetchesOf e.federation p es) ∧
      (e.visit p s item).1.federation = e.federation := by
  -- after the reference has been followed, what is left is to search the version, or nothing
  have hsettled (s : Session) (version : Option QualifiedName) (outcome : Except BranchError Visit)
      (v : Verifier) : Finishes e.federation p 0 ⟨s, ⟨item, version, .settled outcome⟩ :: rest, v⟩ _
        ⟨s.complete item.bundleId version outcome, rest, v⟩ := .of_settled rfl
  have hlocated (s : Session) (version : Option QualifiedName) (l : Located) (v : Verifier) :
      Finishes e.federation p 0 ⟨s, ⟨item, version, .located l⟩ :: rest, v⟩ _ _ :=
    .cons (m := .examine 0) rfl rfl (hsettled s version _ _)
  have hfollow {es : List Event} {st : SearchState} (h : Finishes e.federation p 0
      ⟨(e.federation.followReference p s item).2, (e.federation.followReference p s item).1 :: rest,
        e.verifier⟩ es st) : Finishes e.federation p 0 ⟨s, .start item :: rest, e.verifier⟩ _ st :=
    .cons (m := .follow 0) rfl rfl h
  unfold Federation.followReference at hfollow
  unfold Engine.visit
  cases hlocate : (e.federation.locate p.preference item).value with
  | error err =>
    simp only [hlocate] at hfollow ⊢
    refine ⟨⟨_, hfollow (hsettled s none _ _), ?_⟩, rfl⟩
    simp [advance, note, SearchState.finish, fetchesOf, Event.fetches]
  | ok l =>
    simp only [hlocate] at hfollow ⊢
    unfold Engine.follow
    by_cases hsame : l.bundleId = item.bundleId
    · simp only [if_pos hsame] at hfollow ⊢
      refine ⟨⟨_, hfollow (hlocated s none l _), ?_⟩, rfl⟩
      simp [advance, note, SearchState.finish, fetchesOf, Event.fetches, Federation.search_fetched]
    · simp only [if_neg hsame] at hfollow ⊢
      cases hclaim : s.claimVersion? l.bundleId item with
      | none =>
        simp only [hclaim] at hfollow ⊢
        refine ⟨⟨_, hfollow (hsettled s none _ _), ?_⟩, rfl⟩
        simp [advance, note, SearchState.finish, fetchesOf, Event.fetches]
      | some s' =>
        simp only [hclaim] at hfollow ⊢
        refine ⟨⟨_, hfollow (hlocated s' (some l.bundleId) l _), ?_⟩, rfl⟩
        simp [advance, note, SearchState.finish, fetchesOf, Event.fetches, Federation.search_fetched]

/-- The schedule fills up with visits; as many claims as items wait are enough for that. -/
theorem fills_fillWithin (fuel : Nat) (running : List SearchItem)
    (hfuel : s.frontier.items.length ≤ fuel) :
    ∃ es, Fills f ⟨s, running.map .start, v⟩ es
      ⟨(fillWithin (max f.settings.concurrency 1) f.settings.maxVisited fuel s running).1,
        (fillWithin (max f.settings.concurrency 1) f.settings.maxVisited fuel s running).2.map .start,
        v⟩ := by
  induction fuel generalizing s running with
  | zero =>
    have hempty : s.frontier.items = [] := List.eq_nil_of_length_eq_zero (Nat.le_zero.1 hfuel)
    rw [fillWithin]
    by_cases hroom : running.length < max f.settings.concurrency 1
    · -- a claim finds nothing, and leaves everything as it is
      have hclaim : SearchState.claim f ⟨s, running.map .start, v⟩ =
          (.exhausted, ⟨s, running.map .start, v⟩) := by
        simp [SearchState.claim, Session.claimNext, Session.claimNextWithin, Frontier.size, hempty]
      have hshort : Fills f ⟨s, running.map .start, v⟩ _ _ :=
        .short (by simpa using hroom) (by rw [hclaim]; rfl)
      rw [hclaim] at hshort
      exact ⟨_, hshort⟩
    · exact ⟨[], .full (by simpa using Nat.not_lt.1 hroom)⟩
  | succ fuel ih =>
    rw [fillWithin]
    by_cases hroom : running.length < max f.settings.concurrency 1
    · rw [if_pos hroom]
      have hroom' : (running.map OpenVisit.start).length < max f.settings.concurrency 1 := by
        simpa using hroom
      cases hnext : s.claimNext f.settings.maxVisited with
      | mk next s' =>
        cases next with
        | none =>
          have hshort : Fills f ⟨s, running.map .start, v⟩ _ _ :=
            .short hroom' (by
              simp only [SearchState.claim, hnext]
              split <;> rfl)
          simp only [SearchState.claim, hnext] at hshort
          exact ⟨_, hshort⟩
        | some item =>
          -- a claim takes an item from those that wait, so that less fuel is enough for the rest
          obtain ⟨es, hrest⟩ := ih s' (running ++ [item])
            (Nat.le_of_lt_succ (Nat.lt_of_lt_of_le (Session.length_lt_of_claimNext hnext) hfuel))
          rw [List.map_append, List.map_singleton] at hrest
          have hmore : Fills f ⟨s, running.map .start, v⟩ (_ :: es) _ :=
            .more hroom' (by simp only [SearchState.claim, hnext]; rfl) (by
              simp only [SearchState.claim, hnext]
              exact hrest)
          exact ⟨_, hmore⟩
    · rw [if_neg hroom]
      exact ⟨[], .full (by simpa using Nat.not_lt.1 hroom)⟩

/-- The rounds of the schedule are a run, in which the visits of the last round may still be under way. What
they fetch is recorded. -/
theorem exists_run_rounds (late : Bool) (fuel : Nat) (e : Engine) (running : List SearchItem) :
    ∃ visits es, Run e.federation p ⟨s, running.map .start, e.verifier⟩ es
      ⟨(rounds p late fuel e s running).2, visits, (rounds p late fuel e s running).1.verifier⟩ ∧
      (rounds p late fuel e s running).1.fetched = e.fetched ++ fetchesOf e.federation p es := by
  -- between rounds no visit has followed its reference yet
  induction fuel generalizing e s running with
  | zero => exact ⟨running.map .start, [], .nil, by simp [rounds, fetchesOf]⟩
  | succ fuel ih =>
    rw [rounds]
    have hfill : ∃ es, Run e.federation p ⟨s, running.map .start, e.verifier⟩ es
        ⟨(if mayStart e.federation.settings late s then fill e.federation.settings s running
            else (s, running)).1,
          (if mayStart e.federation.settings late s then fill e.federation.settings s running
            else (s, running)).2.map .start, e.verifier⟩ ∧ fetchesOf e.federation p es = [] := by
      split
      · obtain ⟨es, hfills⟩ := fills_fillWithin s e.verifier _ running (Nat.le_refl _)
        exact ⟨es, hfills.run, hfills.fetchesOf_eq_nil⟩
      · exact ⟨[], .nil, rfl⟩
    generalize (if mayStart e.federation.settings late s then fill e.federation.settings s running
      else (s, running)) = filled at hfill
    obtain ⟨es, hfill, hnone⟩ := hfill
    obtain ⟨s', running'⟩ := filled
    cases running' with
    | nil => exact ⟨[], es, hfill, by rw [hnone, List.append_nil]⟩
    | cons item rest =>
      obtain ⟨⟨es', hvisit, hfetched⟩, hfederation⟩ :=
        finishes_visit (p := p) s' (rest.map .start) e item
      obtain ⟨visits, es'', hrounds, hfetched'⟩ := ih (e.visit p s' item).2 (e.visit p s' item).1 rest
      rw [hfederation] at hrounds hfetched'
      refine ⟨visits, es ++ (es' ++ es''), hfill.append (hvisit.run.append hrounds), ?_⟩
      rw [hfetched', hfetched, fetchesOf_append, fetchesOf_append, hnone, List.nil_append,
        List.append_assoc]

/-- A search that is answered is a run, of whose last session the report tells, and of whose fetches there
is a record. -/
theorem exists_run_search {e e' : Engine} {r : SearchRequest} {report : SearchReport}
    (h : e.search r = (.ok report, e')) :
    ∃ p s es st, prepare e.federation r = .ok (p, s) ∧
      Run e.federation p (.initial s e.verifier) es st ∧
      (∃ late, report = reportOf e.federation.settings late st.session) ∧
      e'.fetched = e.fetched ++ fetchesOf e.federation p es := by
  unfold search at h
  cases hprepare : prepare e.federation r with
  | error err => simp [hprepare] at h
  | ok start =>
    obtain ⟨p, s⟩ := start
    simp only [hprepare, Prod.mk.injEq, Except.ok.injEq] at h
    obtain ⟨visits, es, hrun, hfetched⟩ := exists_run_rounds (p := p) s
      (e.federation.settings.deadline == some 0) (roundBound e.federation) e []
    obtain ⟨hreport, rfl⟩ := h
    exact ⟨p, s, es, _, rfl, hrun, ⟨_, hreport.symm⟩, hfetched⟩

/-- A report tells of a session that a run of the search leads to. -/
theorem search_run {e e' : Engine} {r : SearchRequest} {report : SearchReport}
    (h : e.search r = (.ok report, e')) :
    ∃ p s es st, prepare e.federation r = .ok (p, s) ∧
      Run e.federation p (.initial s e.verifier) es st ∧
      ∃ late, report = reportOf e.federation.settings late st.session := by
  obtain ⟨p, s, es, st, hprepare, hrun, hreport, -⟩ := exists_run_search h
  exact ⟨p, s, es, st, hprepare, hrun, hreport⟩

end Engine

end ProvenanceTrail

/-! ## A small federation

Bundle `A` leads to `B` and `C`, and `B` leads to `X` and `Y`. An agent in `B` fails the one check there is,
so that `X` and `Y` wait behind everything that was reached without `B`.
-/

namespace ProvenanceTrail.Sample

/-- The name of a bundle. -/
def document (localPart : String) : QualifiedName := ⟨"http://a/", localPart⟩

/-- The name of a node. -/
def node (localPart : String) : QualifiedName := ⟨"n:", localPart⟩

/-- A forward connector to a bundle. -/
def connector (localPart target : String) : Node :=
  ((Node.bare (node localPart) .entity).withAttribute Vocabulary.type
    (.qualifiedName ⟨Vocabulary.cpm, "forwardConnector"⟩)).withAttribute
      Vocabulary.referencedBundleId (.qualifiedName (document target))

def bundleA : Bundle where
  id := document "A"
  nodes := #[.bare (node "start") .entity, connector "toB" "B", connector "toC" "C"]
  edges := #[⟨0, 1, [.derivation], by decide⟩, ⟨0, 2, [.derivation], by decide⟩]
  distinct := by decide +kernel

def bundleB : Bundle where
  id := document "B"
  nodes := #[.bare (node "toB") .entity, .bare (node "agent") .agent, connector "toX" "X",
    connector "toY" "Y"]
  edges := #[⟨0, 2, [.derivation], by decide⟩, ⟨0, 3, [.derivation], by decide⟩]
  distinct := by decide +kernel

/-- A bundle without connectors. -/
def leaf (localPart entry : String) : Bundle where
  id := document localPart
  nodes := #[.bare (node entry) .entity]
  edges := #[]
  distinct := by simp

/-- The condition that no node, or every node, is of a kind. -/
def allNodes (tag kind : String) : Json :=
  .object [("type", .string "AllNodes"),
    ("condition", .object [("type", .string tag), ("kind", .string kind)])]

def noAgent : ValidityCheck := ⟨"NO_AGENT", allNodes "IsNotKind" "Agent"⟩

def federation : Federation where
  services :=
    { hosted := [bundleA, bundleB, leaf "C" "toC", leaf "X" "toX", leaf "Y" "toY"].map
        fun b => ("http://s", ⟨b, none⟩)
      unreachable := [] }
  table := ⟨[("http://a/", "http://s")]⟩
  validity := ValidityRegistry.empty.register noAgent
  settings := { SearchSettings.default with concurrency := 2 }

def request : SearchRequest :=
  (SearchRequest.starting (document "A") (node "start") .testFits
    (allNodes "IsKind" "Entity")).withValidityChecks ["NO_AGENT"]

def plan : SearchPlan where
  query := .testFits (.leaf (.allNodes (some (.leaf (.isKind (some .entity))))))
  direction := .forward
  preference := .specified
  checks := [noAgent]

def session : Session := .start ⟨["NO_AGENT"], [.seed (document "A") (node "start") ["NO_AGENT"]]⟩

def verifier : Verifier := ⟨⟨[], true⟩, none⟩

theorem prepare_request : Engine.prepare federation request = .ok (plan, session) := by
  with_unfolding_all rfl

/-- The whole visit at a position. -/
def visit (i : Nat) : List Move := [.follow i, .examine i, .finish i]

/-- The search of `A`, then of `B` and `C` side by side. -/
def opening : List Move := [.claim] ++ visit 0 ++ [.claim, .claim] ++ visit 0

/-- The whole search, two visits at a time. -/
def complete : List Move :=
  opening ++ [.claim] ++ visit 0 ++ [.claim, .claim] ++ visit 0 ++ visit 0

/-! ### Listings that disagree

Bundle `S` leads to `A` and `B`. The meta-bundle of `A` lists `B` as the latest version, and that of `B`
lists `A`.
-/

namespace Versions

/-- The main activity of a bundle with a meta-bundle. -/
def main (metaBundle : String) : Node :=
  ((Node.bare (node "main") .activity).withAttribute Vocabulary.type
    (.qualifiedName ⟨Vocabulary.cpm, "mainActivity"⟩)).withAttribute
      Vocabulary.referencedMetaBundleId (.qualifiedName (document metaBundle))

/-- A version in a meta-bundle. -/
def version (localPart number : String) : Node :=
  ((Node.bare (document localPart) .entity).withAttribute Vocabulary.type
    (.qualifiedName ⟨"http://www.w3.org/ns/prov#", "bundle"⟩)).withAttribute
      Vocabulary.version (.string number)

def bundleS : Bundle where
  id := document "S"
  nodes := #[.bare (node "start") .entity, main "metaS", connector "toA" "A", connector "toB" "B"]
  edges := #[⟨0, 2, [.derivation], by decide⟩, ⟨0, 3, [.derivation], by decide⟩]
  distinct := by decide +kernel

/-- A bundle that can be entered from both connectors. -/
def edition (localPart metaBundle : String) : Bundle where
  id := document localPart
  nodes := #[.bare (node "toA") .entity, .bare (node "toB") .entity, main metaBundle]
  edges := #[]
  distinct := by simp [main, node, Node.withAttribute, Node.bare]

/-- A meta-bundle with two versions. -/
def listing (localPart older newer : String) (h : older ≠ newer) : Bundle where
  id := document localPart
  nodes := #[version older "1", version newer "2"]
  edges := #[⟨0, 1, [.derivation], by decide⟩]
  distinct := by simpa [version, document, Node.withAttribute, Node.bare] using h

def federation : Federation where
  services :=
    { hosted := [bundleS, edition "A" "metaA", edition "B" "metaB",
        listing "metaS" "S0" "S" (by decide), listing "metaA" "A" "B" (by decide),
        listing "metaB" "B" "A" (by decide)].map fun b => ("http://s", ⟨b, none⟩)
      unreachable := [] }
  table := ⟨[("http://a/", "http://s")]⟩
  validity := ValidityRegistry.empty.register noAgent
  settings := { SearchSettings.default with concurrency := 2 }

def request : SearchRequest :=
  ((SearchRequest.starting (document "S") (node "start") .nodeIds
    (.object [("type", .string "IsKind"), ("kind", .string "Entity")])).withValidityChecks
      ["NO_AGENT"]).withVersionPreference .latest

def plan : SearchPlan where
  query := .nodeIds (.fittingNodes (some (.leaf (.isKind (some .entity)))) none)
  direction := .forward
  preference := .latest
  checks := [noAgent]

def session : Session := .start ⟨["NO_AGENT"], [.seed (document "S") (node "start") ["NO_AGENT"]]⟩

theorem prepare_request : Engine.prepare federation request = .ok (plan, session) := by
  with_unfolding_all rfl

/-- `A` and `B` are taken up one after the other. -/
def oneByOne : List Move := [.claim] ++ visit 0 ++ [.claim] ++ visit 0 ++ [.claim]

/-- `A` and `B` are taken up side by side, and `A` is followed first. -/
def sideBySide : List Move :=
  [.claim] ++ visit 0 ++ [.claim, .claim, .follow 0, .finish 0, .follow 0, .finish 0, .claim]

end Versions

/-! ### Two names with one URI

Bundle `S` leads to two names with the URI `http://a/B`. A service hosts a bundle of the one and none of the
other. -/

namespace Spellings

/-- A name with the URI of bundle `B`, split at another place. -/
def whole : QualifiedName := ⟨"http://", "a/B"⟩

/-- A forward connector to a bundle of any name. -/
def reference (localPart : String) (target : QualifiedName) : Node :=
  ((Node.bare (node localPart) .entity).withAttribute Vocabulary.type
    (.qualifiedName ⟨Vocabulary.cpm, "forwardConnector"⟩)).withAttribute
      Vocabulary.referencedBundleId (.qualifiedName target)

def bundleS : Bundle where
  id := document "S"
  nodes := #[.bare (node "start") .entity, reference "toWhole" whole, reference "toB" (document "B")]
  edges := #[⟨0, 1, [.derivation], by decide⟩, ⟨0, 2, [.derivation], by decide⟩]
  distinct := by decide +kernel

def federation : Federation :=
  { Sample.federation with
    services :=
      { hosted := [bundleS, { leaf "B" "toWhole" with id := whole }].map fun b => ("http://s", ⟨b, none⟩)
        unreachable := [] } }

def engine : Engine := ⟨federation, verifier, [], []⟩

def request : SearchRequest :=
  .starting (document "S") (node "start") .testFits (allNodes "IsKind" "Entity")

end Spellings

end ProvenanceTrail.Sample
