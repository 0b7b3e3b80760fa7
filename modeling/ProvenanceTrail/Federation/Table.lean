import ProvenanceTrail.Graph.Name
import ProvenanceTrail.Json.Reader
import ProvenanceTrail.Text.Word
/-!
# The federation table

The table says which service hosts which bundles: it maps prefixes of bundle URIs to services, and the
longest prefix of a bundle's URI decides. A table can so send a whole organization to one service and
carve out single document spaces.
-/

namespace ProvenanceTrail

/-- Routes from URI prefixes to services, prefixes ascending and different. -/
structure FederationTable where
  routes : List (String × String)
deriving DecidableEq, Repr

/-- No route leads to a bundle. -/
structure UnroutableBundle where
  bundle : QualifiedName
deriving DecidableEq, Repr

namespace UnroutableBundle

/-- The text of the error. -/
def message (e : UnroutableBundle) : String :=
  s!"No provenance service registered for bundle {e.bundle}"

end UnroutableBundle

namespace FederationTable

/-- The table without routes. -/
def empty : FederationTable := ⟨[]⟩

/-- Adds a route; a route for the same prefix is replaced. -/
def insert (t : FederationTable) (uriStart service : String) : FederationTable :=
  ⟨Json.insertMember uriStart service t.routes⟩

/-- The table that a list of insertions leads to. -/
def ofList (routes : List (String × String)) : FederationTable :=
  routes.foldl (fun t r => t.insert r.1 r.2) empty

/-- How many routes the table has. -/
def size (t : FederationTable) : Nat := t.routes.length

/-- Whether the table has no routes. -/
def isEmpty (t : FederationTable) : Bool := t.routes.isEmpty

/-- The better of two routes that match: the one with the longer prefix. -/
def longer (best : Option (String × String)) (r : String × String) : Option (String × String) :=
  match best with
  | some b => if r.1.length < b.1.length then some b else some r
  | none => some r

/-- The service of the longest prefix of a bundle's URI. -/
def route? (t : FederationTable) (bundle : QualifiedName) : Option String :=
  ((t.routes.filter fun r => Text.startsWith r.1 bundle.uri).foldl longer none).map (·.2)

/-- The service of the longest prefix of a bundle's URI, or the error that there is none. -/
def route (t : FederationTable) (bundle : QualifiedName) : Except UnroutableBundle String :=
  match t.route? bundle with
  | some service => .ok service
  | none => .error ⟨bundle⟩

/-- Reads a table from the text of a JSON object whose values are services. -/
def ofText? (text : String) : Option FederationTable := do
  match ← Json.read? text with
  | .object members =>
    let routes ← members.mapM fun m => m.2.string?.map fun service => (m.1, service)
    pure (ofList routes)
  | _ => none

end FederationTable

end ProvenanceTrail
