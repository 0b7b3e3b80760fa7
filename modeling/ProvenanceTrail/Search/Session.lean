import ProvenanceTrail.Search.Error
import ProvenanceTrail.Search.Report
/-!
# Sessions

A session is the state of one search: the items that wait, the bundles in flight, and what has been
found so far. It changes in three ways only.

* A visit starts: the next item is claimed, unless a bundle in flight outranks it.
* A visit finds that its reference leads to another version: it claims that version too, unless it is
  claimed already.
* A visit ends: its claims are released and its outcome is recorded.

Visits run side by side, so these steps of different visits may come in any order.
-/

namespace ProvenanceTrail

/-- What a visit brings. -/
inductive Visit where
  /-- the version that the reference leads to is claimed already -/
  | redirected (target : QualifiedName)
  /-- the bundle was searched: its answer if it is to be reported, whether the answer has anything, and
  the items that its connectors lead to -/
  | searched (result : Option FoundResult) (found : Bool) (children : List SearchItem)

/-- The state of a search. -/
structure Session where
  frontier : Frontier
  /-- the claimed bundles, and the items through which they were claimed -/
  inFlight : List (QualifiedName × SearchItem)
  visited : Visits
  results : List FoundResult
  errors : List String
  /-- how many visits were started -/
  started : Nat

namespace Session

/-- The session before the first visit. -/
def start (frontier : Frontier) : Session := ⟨frontier, [], [], [], [], 0⟩

/-- Whether a bundle is in flight. -/
def isInFlight (s : Session) (id : QualifiedName) : Bool := s.inFlight.any fun c => c.1 == id

/-- Whether a bundle is in flight or done. -/
def isClaimed (s : Session) (id : QualifiedName) : Bool :=
  s.isInFlight id || Visits.has id s.visited

/-- Claims a bundle for an item. -/
def claim (s : Session) (id : QualifiedName) (item : SearchItem) : Session :=
  { s with inFlight := s.inFlight ++ [(id, item)] }

/-- Gives the claim of a bundle up. -/
def release (s : Session) (id : QualifiedName) : Session :=
  { s with inFlight := s.inFlight.filter fun c => c.1 != id }

/-- Records the outcome of a bundle. -/
def record (s : Session) (id : QualifiedName) (outcome : VisitOutcome) : Session :=
  { s with visited := Visits.insert id outcome s.visited }

/-- Records an error text. -/
def report (s : Session) (text : String) : Session := { s with errors := s.errors ++ [text] }

/-- Ends the branch of a bundle with an error. -/
def skip (s : Session) (id : QualifiedName) (e : BranchError) : Session :=
  (s.report s!"Error while processing bundle {id}: {e.message}").record id
    (.skipped e.code e.message)

/-- Puts an item into the frontier; an item with other checks is reported instead. -/
def enqueue (s : Session) (item : SearchItem) : Session :=
  match s.frontier.push item with
  | .ok frontier => { s with frontier := frontier }
  | .error e => s.report e.message

/-- Whether a bundle in flight comes strictly before an item: it may still lead to better ones. -/
def isOutranked (s : Session) (item : SearchItem) : Bool :=
  s.inFlight.any fun c =>
    match c.2.precedes item with
    | .ok before => before
    | .error _ => false

/-- Claims the next of at most `fuel` waiting items for a visit. Items of claimed bundles are dropped.
An item that is outranked goes back and nothing is claimed. Beyond the limit of visits, items are
skipped. -/
def claimNextWithin (limit : Option Nat) : Nat → Session → Option SearchItem × Session
  | 0, s => (none, s)
  | fuel + 1, s =>
    match s.frontier.pop with
    | none => (none, s)
    | some (item, frontier) =>
      let s := { s with frontier := frontier }
      if s.isClaimed item.bundleId then claimNextWithin limit fuel s
      else if s.isOutranked item then (none, s.enqueue item)
      else
        match limit.filter (· ≤ s.started) with
        | some n => claimNextWithin limit fuel (s.skip item.bundleId (.visitLimit n))
        | none => (some item, { s.claim item.bundleId item with started := s.started + 1 })

/-- Claims the next item for a visit, if one may start. -/
def claimNext (limit : Option Nat) (s : Session) : Option SearchItem × Session :=
  claimNextWithin limit s.frontier.size s

/-- Claims the version that an item was resolved to, unless it is claimed already. -/
def claimVersion? (s : Session) (resolved : QualifiedName) (item : SearchItem) : Option Session :=
  if s.isClaimed resolved then none else some (s.claim resolved item)

/-- Puts those of the items into the frontier whose bundles are not claimed. -/
def enqueueAll (s : Session) (children : List SearchItem) : Session :=
  children.foldl (fun s child => if s.isClaimed child.bundleId then s else s.enqueue child) s

/-- Ends a visit of a referenced bundle, with the other version that it had claimed if it had. -/
def complete (s : Session) (referenced : QualifiedName) (version : Option QualifiedName) :
    Except BranchError Visit → Session
  | outcome =>
    let s := version.elim (s.release referenced) (s.release referenced).release
    match outcome with
    | .ok (.redirected target) => s.record referenced (.redirected target)
    | .ok (.searched result found children) =>
      let s := version.elim s fun v => s.record referenced (.redirected v)
      let s := s.record (version.getD referenced) (if found then .found else .notFound)
      let s := { s with results := s.results ++ result.toList }
      s.enqueueAll children
    | .error e => (version.elim s fun v => s.skip v e).skip referenced e

end Session

end ProvenanceTrail
