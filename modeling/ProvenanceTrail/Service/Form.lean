import ProvenanceTrail.Json.Form
import ProvenanceTrail.Query.Basic
import ProvenanceTrail.Version.Latest
/-!
# Forms of bodies

The body of a request is held against the form that its path asks for. What follows the value does not
count.
-/

namespace ProvenanceTrail

namespace Form

/-- A version preference. -/
def preference : Form := .word ([VersionPreference.specified, .latest].map VersionPreference.name)

/-- A request for a search. -/
def search : Form :=
  .record [needed "bundleId" QualifiedName.form, spare "startNodeId" (.optional QualifiedName.form),
    spare "backward" .flag, spare "versionPreference" preference, spare "validityChecks" (.list .text),
    needed "queryType" QueryType.form, spare "querySpecification" .anything]

/-- A request for a bundle. -/
def bundle : Form := .record [needed "bundleId" QualifiedName.form]

/-- A query of a bundle. -/
def bundleQuery : Form :=
  .record [needed "bundleId" QualifiedName.form, spare "startNodeId" (.optional QualifiedName.form),
    needed "queryType" QueryType.form, spare "querySpecification" .anything]

/-- A request for a version of a bundle. -/
def pickVersion : Form :=
  .record [needed "bundleId" QualifiedName.form, spare "versionPreference" preference]

end Form

end ProvenanceTrail
