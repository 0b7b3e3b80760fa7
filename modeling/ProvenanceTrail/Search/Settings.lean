import ProvenanceTrail.Number.DecimalText
import ProvenanceTrail.Text.Word
/-!
# Settings of searches

Settings come from the environment: each from a variable of its own, which counts when its text, blanks
around it aside, is a number or a truth value.
-/

namespace ProvenanceTrail

/-- How searches are run. -/
structure SearchSettings where
  /-- how many bundles are searched at a time -/
  concurrency : Nat
  /-- after how many milliseconds no further bundle is taken up -/
  deadline : Option Nat
  maxResults : Option Nat
  maxVisited : Option Nat
  omitEmptyResults : Bool
  preferServiceFromConnectors : Bool
  /-- whether the connectors of bundles that are not trusted are left alone -/
  requireIntegrity : Bool
  delegateVersionPick : Bool
deriving DecidableEq, Repr

namespace SearchSettings

/-- What holds when nothing is set. -/
def default : SearchSettings := ⟨10, none, none, none, false, false, false, false⟩

/-- The value of a variable of the environment, without the blanks around it. -/
def valueOf? (environment : List (String × String)) (name : String) : Option String :=
  (Text.meaning? environment name).map Text.trim

/-- The natural number that a variable gives. -/
def number? (environment : List (String × String)) (name : String) : Option Nat :=
  (valueOf? environment name).bind Number.readUnsigned64?

/-- The truth value that a variable gives. -/
def flag? (environment : List (String × String)) (name : String) : Option Bool :=
  (valueOf? environment name).bind (Text.meaning? [("true", true), ("false", false)])

/-- The settings that an environment gives. A concurrency of zero does not count. -/
def ofEnvironment (environment : List (String × String)) : SearchSettings :=
  { concurrency :=
      ((number? environment "SEARCH_CONCURRENCY").filter (0 < ·)).getD default.concurrency
    deadline := (number? environment "SEARCH_DEADLINE_SECS").map (· * 1000)
    maxResults := number? environment "SEARCH_MAX_RESULTS"
    maxVisited := number? environment "SEARCH_MAX_VISITED"
    omitEmptyResults :=
      (flag? environment "SEARCH_OMIT_EMPTY_RESULTS").getD default.omitEmptyResults
    preferServiceFromConnectors :=
      (flag? environment "SEARCH_PREFER_CONNECTOR_SERVICE").getD default.preferServiceFromConnectors
    requireIntegrity :=
      (flag? environment "SEARCH_REQUIRE_INTEGRITY").getD default.requireIntegrity
    delegateVersionPick :=
      (flag? environment "SEARCH_DELEGATE_VERSION_PICK").getD default.delegateVersionPick }

end SearchSettings

end ProvenanceTrail
