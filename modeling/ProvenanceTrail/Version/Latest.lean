import ProvenanceTrail.Graph.Connector
import ProvenanceTrail.Hosting.Remote
import ProvenanceTrail.Number.DecimalText
/-!
# The latest version

The versions of a bundle are listed in its meta-bundle: each is a node of the bundle type with a
version number. The greatest number wins, and of equal ones the one that is reached first.
-/

namespace ProvenanceTrail

/-- Which version of a referenced bundle a search follows. -/
inductive VersionPreference where
  /-- the referenced bundle itself -/
  | specified
  /-- the latest version that its meta-bundle lists -/
  | latest
deriving DecidableEq, Repr

namespace VersionPreference

/-- The word for a preference. -/
def name : VersionPreference → String
  | .specified => "SPECIFIED"
  | .latest => "LATEST"

/-- The JSON form. -/
def toJson (p : VersionPreference) : Json := .string p.name

/-- Reads the JSON form. -/
def ofJson? : Json → Option VersionPreference :=
  Json.word? (Text.meaning? [("SPECIFIED", .specified), ("LATEST", .latest)])

end VersionPreference

/-- Why a reference could not be resolved to a version. -/
inductive ResolutionError where
  /-- the bundle names no meta-bundle, and neither does the connector -/
  | missingMetaBundle (bundle : QualifiedName)
  /-- a version in the meta-bundle is no finite number -/
  | nonNumericVersion (metaBundle node : QualifiedName) (version : String)
  /-- a service failed -/
  | remote (failure : RemoteFailure)
deriving DecidableEq, Repr

namespace ResolutionError

/-- The text of an error. -/
def message : ResolutionError → String
  | .missingMetaBundle bundle => s!"Bundle {bundle} declares no meta-bundle"
  | .nonNumericVersion metaBundle node version =>
    s!"Non-numeric version '{version}' on {node} in meta-bundle {metaBundle}"
  | .remote failure => s!"Version lookup failed: {failure.message}"

end ResolutionError

namespace Bundle

/-- The versions that a meta-bundle lists, in the order in which they are reached from its default
start: the nodes of the bundle type that have a version text, with that text. -/
def listedVersions (b : Bundle) : List (QualifiedName × String) :=
  match b.defaultStart? with
  | none => []
  | some root => (b.reachable root).filterMap fun n =>
    if b.hasType n Vocabulary.bundle then
      ((b.node n).textValue? Vocabulary.version).map fun text => ((b.node n).id, text)
    else none

/-- The number that a version text writes, blanks around it aside. -/
def versionNumber? (text : String) : Option Binary64 := Number.readDecimal? (Text.trim text)

/-- The greatest of the versions and the best so far, earlier ones preferred; the first text that is
no number is an error. -/
def newest (metaBundle : QualifiedName) :
    Option (Binary64 × QualifiedName) → List (QualifiedName × String) →
      Except ResolutionError (Option (Binary64 × QualifiedName))
  | best, [] => .ok best
  | best, (node, text) :: rest =>
    match versionNumber? text with
    | none => .error (.nonNumericVersion metaBundle node text)
    | some number =>
      let better := match best with
        | none => true
        | some (least, _) => least.blt number
      newest metaBundle (if better then some (number, node) else best) rest

/-- The latest version that a meta-bundle lists. -/
def latestVersion (b : Bundle) : Except ResolutionError (Option QualifiedName) :=
  (newest b.id none b.listedVersions).map fun best => best.map (·.2)

end Bundle

end ProvenanceTrail
