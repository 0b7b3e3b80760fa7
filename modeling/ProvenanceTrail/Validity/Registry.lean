import ProvenanceTrail.Digest.Xxh64
import ProvenanceTrail.Hosting.Services
import ProvenanceTrail.Validity.Outcome
/-!
# Validity checks

A check is a condition on bundles that the service of a bundle evaluates. Checks are registered once; a
search selects some of them, in an order that also ranks its paths.
-/

namespace ProvenanceTrail

/-- A check: its id, and its condition as it is sent to services. -/
structure ValidityCheck where
  id : String
  condition : Json

/-- A check is asked for that is not registered. -/
structure UnknownCheck where
  id : String
deriving DecidableEq, Repr

namespace UnknownCheck

/-- The text of the error. -/
def message (e : UnknownCheck) : String := s!"Unknown validity check: {e.id}"

end UnknownCheck

namespace ValidityCheck

/-- A check whose condition can be read. -/
def ofCondition (id : String) (condition : Json) : Except ConditionError ValidityCheck :=
  match Condition.bundleOfJson condition with
  | .error e => .error e
  | .ok _ => .ok ⟨id, condition⟩

/-- Has a service evaluate the check on one of its bundles, entered at a node. -/
def run (c : ValidityCheck) (s : Services) (service : String) (bundle entry : QualifiedName) :
    Except RemoteFailure Bool :=
  match s.query service ⟨bundle, some entry, .testFits, c.condition⟩ with
  | .error e => .error (e.toRemote service)
  | .ok response =>
    match response.result with
    | .testFits fits => .ok fits
    | other => .error
        ⟨service, s!"Expected TEST_FITS result for check {c.id}, got {other.type.name}"⟩

/-- Has a service evaluate checks in order, up to the first failure. -/
def runAll (s : Services) (service : String) (bundle entry : QualifiedName) :
    List ValidityCheck → Except RemoteFailure (List CheckOutcome)
  | [] => .ok []
  | c :: rest =>
    match c.run s service bundle entry with
    | .error e => .error e
    | .ok satisfied =>
      match runAll s service bundle entry rest with
      | .error e => .error e
      | .ok outcomes => .ok (⟨c.id, satisfied⟩ :: outcomes)

end ValidityCheck

/-- The registered checks: ids ascending and different, and each check under its own id. -/
structure ValidityRegistry where
  checks : List (String × ValidityCheck)
  keyed : ∀ e ∈ checks, e.2.id = e.1 := by simp

namespace ValidityRegistry

/-- The registry without checks. -/
def empty : ValidityRegistry where
  checks := []

/-- Registers a check, in place of one of the same id. -/
def register (r : ValidityRegistry) (c : ValidityCheck) : ValidityRegistry where
  checks := Json.insertMember c.id c r.checks
  keyed := by
    intro e he
    rcases Json.mem_insertMember he with rfl | he
    · rfl
    · exact r.keyed e he

/-- The ids of the checks, ascending. -/
def ids (r : ValidityRegistry) : List String := r.checks.map (·.1)

/-- How many checks are registered. -/
def size (r : ValidityRegistry) : Nat := r.checks.length

/-- The check of an id. -/
def find? (r : ValidityRegistry) (id : String) : Option ValidityCheck := Text.meaning? r.checks id

/-- The digest of the ids, which tells sets of checks apart. -/
def fingerprint (r : ValidityRegistry) : String :=
  Digest.Xxh64.hexDigest (Json.array (r.ids.map .string)).canonical.toUTF8.toList

/-- Selects the checks of ids after those already selected; an id that occurs again is passed over. -/
def selectAfter (r : ValidityRegistry) (selected : List ValidityCheck) :
    List String → Except UnknownCheck (List ValidityCheck)
  | [] => .ok selected
  | id :: rest =>
    if selected.any fun c => c.id == id then selectAfter r selected rest
    else
      match r.find? id with
      | none => .error ⟨id⟩
      | some c => selectAfter r (selected ++ [c]) rest

/-- The checks of ids, in the order of their first occurrence, each once. -/
def select (r : ValidityRegistry) (ids : List String) : Except UnknownCheck (List ValidityCheck) :=
  r.selectAfter [] ids

/-- The condition that a node of a type that matches a pattern exists. -/
def someNodeOfType (pattern : String) : Json :=
  .object
    [("type", .string "CountComparisonCondition"),
      ("first", .object
        [("type", .string "FittingNodes"),
          ("nodeCondition", .object
            [("type", .string "HasAttrValue"), ("attributeNameUri", .string Vocabulary.type),
              ("kind", .string "QualifiedName"), ("uriRegex", .string pattern)]),
          ("startsIn", .object [("type", .string "WholeGraph")])]),
      ("comparisonResult", .string "GE"),
      ("second", .object [("type", .string "CountConstant"), ("count", Json.ofNat 1)])]

/-- The condition that every activity has a start time and that there is a main activity. -/
def simpleConstraints : Json :=
  .object
    [("type", .string "AllTrue"),
      ("conditions", .array
        [.object
          [("type", .string "AllNodes"),
            ("condition", .object
              [("type", .string "Implication"),
                ("premise", .object [("type", .string "IsKind"), ("kind", .string "Activity")]),
                ("consequence", .object
                  [("type", .string "HasAttr"),
                    ("attributeNameUri", .string Vocabulary.startTime)])])],
          someNodeOfType ".*mainActivity"])]

/-- The checks for demonstrations. -/
def demo : ValidityRegistry :=
  (((empty.register ⟨"DEMO_SIMPLE_CONSTRAINTS", simpleConstraints⟩).register
    ⟨"DEMO_IS_SAMPLING_BUNDLE", someNodeOfType ".*[Ss]ampl.*"⟩).register
    ⟨"DEMO_IS_PROCESSING_BUNDLE", someNodeOfType ".*[Pp]rocess.*"⟩)

end ValidityRegistry

end ProvenanceTrail
