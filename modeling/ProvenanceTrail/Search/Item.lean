import ProvenanceTrail.Graph.Connector
import ProvenanceTrail.Validity.Outcome
/-!
# Items of a search

An item is a bundle that a search may go to, with what the path to it has established: whether all
bundles on the path are trusted, and which checks all of them satisfied.
-/

namespace ProvenanceTrail

/-- A bundle to search, and how credible the path to it is. -/
structure SearchItem where
  bundleId : QualifiedName
  entryNodeId : QualifiedName
  metaBundleId : Option QualifiedName
  serviceHint : Option String
  expectedDigest : Option String
  pathIntegrity : Bool
  pathValidity : List CheckOutcome
deriving DecidableEq, Repr

namespace SearchItem

/-- The item that a search starts with: nothing speaks against it yet. -/
def seed (bundle entry : QualifiedName) (checks : List String) : SearchItem :=
  ⟨bundle, entry, none, none, none, true, checks.map fun c => ⟨c, true⟩⟩

/-- The item for the bundle that a connector refers to, reached over a path. -/
def ofConnector? (c : Connector) (pathIntegrity : Bool) (pathValidity : List CheckOutcome) :
    Option SearchItem :=
  c.referencedBundleId.map fun bundle =>
    ⟨bundle, c.referencedConnectorId, c.referencedMetaBundleId, c.provenanceServiceUri,
      c.referencedBundleHashValue, pathIntegrity, pathValidity⟩

/-- The JSON form. -/
def toJson (i : SearchItem) : Json :=
  .object
    ([("bundleId", i.bundleId.toJson), ("entryNodeId", i.entryNodeId.toJson)] ++
      Json.memberIfSome "metaBundleId" QualifiedName.toJson i.metaBundleId ++
      Json.memberIfSome "serviceHint" .string i.serviceHint ++
      Json.memberIfSome "expectedDigest" .string i.expectedDigest ++
      [("pathIntegrity", .bool i.pathIntegrity),
        ("pathValidity", .array (i.pathValidity.map CheckOutcome.toJson))])

/-- The form of an item in a text. -/
def form : Form :=
  .record [Form.needed "bundleId" QualifiedName.form, Form.needed "entryNodeId" QualifiedName.form,
    Form.spare "metaBundleId" (.optional QualifiedName.form), Form.spare "serviceHint" (.optional .text),
    Form.spare "expectedDigest" (.optional .text), Form.needed "pathIntegrity" .flag,
    Form.needed "pathValidity" (.list CheckOutcome.form)]

/-- Reads the JSON form. -/
def ofJson? (j : Json) : Option SearchItem := do
  match ← j.fields? ["bundleId", "entryNodeId", "metaBundleId", "serviceHint", "expectedDigest",
    "pathIntegrity", "pathValidity"] with
  | [bundle, entry, metaBundle, hint, digest, integrity, validity] =>
    let bundle ← Json.required? QualifiedName.ofJson? bundle
    let entry ← Json.required? QualifiedName.ofJson? entry
    let metaBundle ← Json.optional? QualifiedName.ofJson? metaBundle
    let hint ← Json.optional? Json.string? hint
    let digest ← Json.optional? Json.string? digest
    let integrity ← Json.required? Json.bool? integrity
    let validity ← Json.required? (Json.list? CheckOutcome.ofJson?) validity
    pure ⟨bundle, entry, metaBundle, hint, digest, integrity, validity⟩
  | _ => none

end SearchItem

end ProvenanceTrail
