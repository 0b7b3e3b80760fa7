import ProvenanceTrail.Graph.Node
import ProvenanceTrail.Graph.Relation
/-!
# Bundle documents

The flat form in which bundles are exchanged: a list of nodes, and a list of edges that name their
ends. Nothing is checked here; `Bundle.ofDocument` does that.
-/

namespace ProvenanceTrail

/-- An edge that names its ends. -/
structure EdgeDocument where
  cause : QualifiedName
  effect : QualifiedName
  relations : List RelationKind
deriving DecidableEq, Repr

namespace EdgeDocument

/-- The JSON form. -/
def toJson (e : EdgeDocument) : Json :=
  .object [("cause", e.cause.toJson), ("effect", e.effect.toJson),
    ("relations", .array (e.relations.map RelationKind.toJson))]

/-- The form of an edge in a text. -/
def form : Form :=
  .record [Form.needed "cause" QualifiedName.form, Form.needed "effect" QualifiedName.form,
    Form.needed "relations" (.list RelationKind.form)]

/-- Reads the JSON form from a medium. -/
def read? (m : Json.Medium) (j : Json) : Option EdgeDocument := do
  match ← j.fields? ["cause", "effect", "relations"] with
  | [cause, effect, relations] =>
    let cause ← Json.required? QualifiedName.ofJson? cause
    let effect ← Json.required? QualifiedName.ofJson? effect
    let relations ← Json.required? (Json.list? (RelationKind.read? m)) relations
    pure ⟨cause, effect, relations⟩
  | _ => none

/-- Reads the JSON form. -/
def ofJson? : Json → Option EdgeDocument := read? .text

end EdgeDocument

/-- A bundle as it is exchanged. -/
structure BundleDocument where
  id : QualifiedName
  nodes : List Node
  edges : List EdgeDocument
deriving DecidableEq, Repr

namespace BundleDocument

/-- The JSON form. -/
def toJson (d : BundleDocument) : Json :=
  .object [("id", d.id.toJson), ("nodes", .array (d.nodes.map Node.toJson)),
    ("edges", .array (d.edges.map EdgeDocument.toJson))]

/-- The form of a bundle in a text. -/
def form : Form :=
  .record [Form.needed "id" QualifiedName.form, Form.spare "nodes" (.list Node.form),
    Form.spare "edges" (.list EdgeDocument.form)]

/-- Reads the JSON form; nodes and edges may be left out. -/
def ofJson? (j : Json) : Option BundleDocument := do
  match ← j.fields? ["id", "nodes", "edges"] with
  | [id, nodes, edges] =>
    let id ← Json.required? QualifiedName.ofJson? id
    let nodes ← Json.defaulted? (Json.list? Node.ofJson?) [] nodes
    let edges ← Json.defaulted? (Json.list? EdgeDocument.ofJson?) [] edges
    pure ⟨id, nodes, edges⟩
  | _ => none

/-- A document without nodes and edges. -/
def empty (id : QualifiedName) : BundleDocument := ⟨id, [], []⟩

/-- Adds a node behind the others. -/
def withNode (d : BundleDocument) (node : Node) : BundleDocument :=
  { d with nodes := d.nodes ++ [node] }

/-- Adds an edge behind the others. -/
def withEdge (d : BundleDocument) (cause effect : QualifiedName) (relations : List RelationKind) :
    BundleDocument :=
  { d with edges := d.edges ++ [⟨cause, effect, relations⟩] }

end BundleDocument

end ProvenanceTrail
