import ProvenanceTrail.Json.Form
import ProvenanceTrail.Json.Record
/-!
# Outcomes of validity checks

A check is known by its id. Along a path a check counts as satisfied when every bundle on the path
satisfied it.
-/

namespace ProvenanceTrail

/-- Whether a check was satisfied. -/
structure CheckOutcome where
  check : String
  satisfied : Bool
deriving DecidableEq, Repr

namespace CheckOutcome

/-- The JSON form. -/
def toJson (o : CheckOutcome) : Json :=
  .object [("check", .string o.check), ("satisfied", .bool o.satisfied)]

/-- The form of an outcome in a text. -/
def form : Form := .record [Form.needed "check" .text, Form.needed "satisfied" .flag]

/-- Reads the JSON form. -/
def ofJson? (j : Json) : Option CheckOutcome := do
  match ← j.fields? ["check", "satisfied"] with
  | [check, satisfied] =>
    let check ← Json.required? Json.string? check
    let satisfied ← Json.required? Json.bool? satisfied
    pure ⟨check, satisfied⟩
  | _ => none

/-- Whether a check is satisfied according to the first outcome that a list has for it; a check that
was not made counts as satisfied. -/
def satisfiedIn (own : List CheckOutcome) (check : String) : Bool :=
  match own.find? fun o => o.check == check with
  | some o => o.satisfied
  | none => true

/-- The outcomes along a path that goes on through a bundle: what the path has inherited, and what the
bundle's own checks say. -/
def combine (inherited own : List CheckOutcome) : List CheckOutcome :=
  inherited.map fun o => ⟨o.check, o.satisfied && satisfiedIn own o.check⟩

end CheckOutcome

end ProvenanceTrail
