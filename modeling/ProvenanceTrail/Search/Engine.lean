import ProvenanceTrail.Search.Branch
import ProvenanceTrail.Search.Metric
/-!
# Running searches

A search goes in rounds. In each round visits are started until as many run as are allowed or no
further item may be claimed, and then the visit that was started first runs to its end. Services in
memory answer at once, so a visit runs without a pause and the deadline has either passed at the start
or does not pass at all.
-/

namespace ProvenanceTrail

/-- What outlasts a search: the verifier with its remembered verdicts, the bundles that were fetched,
and the events, each in order. -/
structure Engine where
  federation : Federation
  verifier : Verifier
  fetched : List QualifiedName
  metrics : List Metric

namespace Engine

/-- Notes an event. -/
def note (e : Engine) (m : Metric) : Engine := { e with metrics := e.metrics ++ [m] }

/-- Notes fetched bundles and a verifier. -/
def advance (e : Engine) (fetched : List QualifiedName) (verifier : Verifier) : Engine :=
  { e with fetched := e.fetched ++ fetched, verifier := verifier }

/-- Runs the second part of a visit, after its reference was resolved: the version is claimed unless it
is the referenced bundle, and searched. -/
def follow (e : Engine) (p : SearchPlan) (s : Session) (item : SearchItem) (l : Located) :
    Engine × Session :=
  let searchIn (s : Session) (version : Option QualifiedName) : Engine × Session :=
    let answer := e.federation.search p item l e.verifier
    let e := (e.advance answer.fetched answer.value.2).note (.ofVisit answer.value.1)
    (e, s.complete item.bundleId version answer.value.1)
  if l.bundleId = item.bundleId then searchIn s none
  else
    match s.claimVersion? l.bundleId item with
    | some s => searchIn s (some l.bundleId)
    | none =>
      let outcome : Except BranchError Visit := .ok (.redirected l.bundleId)
      (e.note (.ofVisit outcome), s.complete item.bundleId none outcome)

/-- Runs a visit to its end. -/
def visit (e : Engine) (p : SearchPlan) (s : Session) (item : SearchItem) : Engine × Session :=
  let answer := e.federation.locate p.preference item
  let e := e.advance answer.fetched e.verifier
  match answer.value with
  | .error err =>
    let outcome : Except BranchError Visit := .error err
    (e.note (.ofVisit outcome), s.complete item.bundleId none outcome)
  | .ok l => e.follow p s item l

/-- Starts visits while fewer than `concurrency` run, at most `fuel` of them. The running ones are
listed in the order of their start. -/
def fillWithin (concurrency : Nat) (limit : Option Nat) :
    Nat → Session → List SearchItem → Session × List SearchItem
  | 0, s, running => (s, running)
  | fuel + 1, s, running =>
    if running.length < concurrency then
      match s.claimNext limit with
      | (some item, s) => fillWithin concurrency limit fuel s (running ++ [item])
      | (none, s) => (s, running)
    else (s, running)

/-- Starts the visits of a round. Each takes an item from the frontier, so there are no more of them
than items wait. -/
def fill (settings : SearchSettings) (s : Session) (running : List SearchItem) :
    Session × List SearchItem :=
  fillWithin (max settings.concurrency 1) settings.maxVisited s.frontier.size s running

/-- Whether visits may still be started: the deadline has not passed and results are still wanted. -/
def mayStart (settings : SearchSettings) (late : Bool) (s : Session) : Bool :=
  !late && settings.maxResults.all fun n => s.results.length < n

/-- At most `fuel` rounds, until no visit runs. -/
def rounds (p : SearchPlan) (late : Bool) :
    Nat → Engine → Session → List SearchItem → Engine × Session
  | 0, e, s, _ => (e, s)
  | fuel + 1, e, s, running =>
    let settings := e.federation.settings
    let (s, running) := if mayStart settings late s then fill settings s running else (s, running)
    match running with
    | [] => (e, s)
    | item :: rest =>
      let (e, s) := e.visit p s item
      rounds p late fuel e s rest

/-- How many rounds suffice. Every round but the last ends the visit of another bundle, and each such
bundle is the first one or is named by a node of a hosted bundle. -/
def roundBound (f : Federation) : Nat :=
  f.services.hosted.foldl (fun n h => n + h.2.bundle.nodes.size) 2

/-- The report of a session. -/
def reportOf (settings : SearchSettings) (late : Bool) (s : Session) : SearchReport :=
  { results := settings.maxResults.elim s.results s.results.take
    visited := s.visited
    errors := s.errors
    timedOut := late && !s.frontier.isEmpty }

/-- The plan for a request, and the session it starts with. The start node is looked at first, then the
query, then the checks. -/
def prepare (f : Federation) (r : SearchRequest) : Except SearchError (SearchPlan × Session) :=
  match r.startNodeId with
  | none => .error .missingStartNode
  | some start =>
    match BundleQuery.ofJson r.queryType r.querySpecification with
    | .error e => .error (.invalidQuery e)
    | .ok query =>
      match f.validity.select r.validityChecks with
      | .error e => .error (.unknownCheck e)
      | .ok checks =>
        let ids := checks.map ValidityCheck.id
        match (Frontier.empty ids).push (.seed r.bundleId start ids) with
        | .error e => .error (.layout e)
        | .ok frontier =>
          .ok (⟨query, r.direction, r.versionPreference, checks⟩, .start frontier)

/-- Runs a search. -/
def search (e : Engine) (r : SearchRequest) : Except SearchError SearchReport × Engine :=
  match prepare e.federation r with
  | .error err => (.error err, e)
  | .ok (p, s) =>
    let settings := e.federation.settings
    let late := settings.deadline == some 0
    let (e, s) := rounds p late (roundBound e.federation) e s []
    let report := reportOf settings late s
    (.ok report, e.note (.ofReport report))

end Engine

end ProvenanceTrail
