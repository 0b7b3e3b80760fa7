import ProvenanceTrail.Graph.Tables
/-!
# Bundles

A bundle is one signed unit of a provenance graph. Its nodes and edges are addressed by position, and
the type keeps what loading has checked: node ids are pairwise different, every edge joins two nodes
of the bundle and carries at least one relation.
-/

namespace ProvenanceTrail

/-- Edges that were loaded, with the tables of them. -/
structure LoadedEdges (nodes : Nat) where
  edges : Array (Edge nodes)
  asCause : EdgeTable nodes edges.size
  asEffect : EdgeTable nodes edges.size
  asCause_eq : asCause = .ofEdges edges Edge.cause
  asEffect_eq : asEffect = .ofEdges edges Edge.effect

namespace LoadedEdges

variable {nodes : Nat}

/-- No edges. -/
def empty : LoadedEdges nodes :=
  ⟨#[], ⟨Vector.replicate nodes []⟩, ⟨Vector.replicate nodes []⟩, rfl, rfl⟩

/-- One edge more, which is entered at both of its ends. -/
def push (loaded : LoadedEdges nodes) (edge : Edge nodes) : LoadedEdges nodes where
  edges := loaded.edges.push edge
  asCause := (loaded.asCause.grow (EdgeTable.size_le_size_push ..)).push edge.cause
    ⟨loaded.edges.size, EdgeTable.size_lt_size_push ..⟩
  asEffect := (loaded.asEffect.grow (EdgeTable.size_le_size_push ..)).push edge.effect
    ⟨loaded.edges.size, EdgeTable.size_lt_size_push ..⟩
  asCause_eq := by rw [loaded.asCause_eq, EdgeTable.ofEdges_push]
  asEffect_eq := by rw [loaded.asEffect_eq, EdgeTable.ofEdges_push]

end LoadedEdges

/-- A loaded bundle. What is looked up often stands in tables, which are those of the nodes and edges. -/
structure Bundle where
  id : QualifiedName
  nodes : Array Node
  edges : Array (Edge nodes.size)
  distinct : (nodes.toList.map Node.id).Nodup
  byId : NodeTable nodes.size := .ofNodes nodes
  /-- the edges in which a node is the cause -/
  asCause : EdgeTable nodes.size edges.size := .ofEdges edges Edge.cause
  /-- the edges in which a node is the effect -/
  asEffect : EdgeTable nodes.size edges.size := .ofEdges edges Edge.effect
  byId_eq : byId = .ofNodes nodes := by rfl
  asCause_eq : asCause = .ofEdges edges Edge.cause := by rfl
  asEffect_eq : asEffect = .ofEdges edges Edge.effect := by rfl

/-- What makes a document no bundle. -/
inductive BundleError where
  /-- two nodes have the same id -/
  | duplicateNode (bundle node : QualifiedName)
  /-- an edge names a node that the bundle lacks -/
  | danglingEdge (bundle node : QualifiedName)
  /-- an edge has no relation -/
  | emptyRelations (cause effect : QualifiedName)
deriving DecidableEq, Repr

namespace BundleError

/-- The text of an error. -/
def message : BundleError → String
  | .duplicateNode bundle node => s!"Duplicate node id in bundle {bundle}: {node}"
  | .danglingEdge bundle node => s!"Edge endpoint not found in bundle {bundle}: {node}"
  | .emptyRelations cause effect => s!"Edge {cause} -> {effect} carries no relation"

end BundleError

namespace Bundle

/-- The position of a node. -/
abbrev NodeIx (b : Bundle) : Type := Fin b.nodes.size

/-- The position of an edge. -/
abbrev EdgeIx (b : Bundle) : Type := Fin b.edges.size

/-- The node at a position. -/
def node (b : Bundle) (i : b.NodeIx) : Node := b.nodes[i]

/-- The edge at a position. -/
def edge (b : Bundle) (i : b.EdgeIx) : Edge b.nodes.size := b.edges[i]

/-- All positions of nodes, in order. -/
def nodeIndices (b : Bundle) : List b.NodeIx := List.finRange b.nodes.size

/-- All positions of edges, in order. -/
def edgeIndices (b : Bundle) : List b.EdgeIx := List.finRange b.edges.size

/-- The position of the node with an id. -/
def find? (b : Bundle) (id : QualifiedName) : Option b.NodeIx := b.byId.get? id

/-- The edge of a document between nodes. Relations are checked first, then cause and effect. -/
def edgeOf {size : Nat} (bundle : QualifiedName) (byId : NodeTable size) (d : EdgeDocument) :
    Except BundleError (Edge size) :=
  if h : d.relations = [] then .error (.emptyRelations d.cause d.effect)
  else
    match byId.get? d.cause with
    | none => .error (.danglingEdge bundle d.cause)
    | some cause =>
      match byId.get? d.effect with
      | none => .error (.danglingEdge bundle d.effect)
      | some effect => .ok ⟨cause, effect, d.relations, h⟩

/-- Loads edges behind those that are there, up to the first that is no edge. -/
def loadEdges {size : Nat} (bundle : QualifiedName) (byId : NodeTable size) (loaded : LoadedEdges size) :
    List EdgeDocument → Except BundleError (LoadedEdges size)
  | [] => .ok loaded
  | d :: rest =>
    match edgeOf bundle byId d with
    | .error e => .error e
    | .ok edge => loadEdges bundle byId (loaded.push edge) rest

/-- Loads a document. Nodes are checked first, then the edges one by one; the tables are filled on the way. -/
def ofDocument (d : BundleDocument) : Except BundleError Bundle :=
  match h : NodeTable.enterAll ⟨[]⟩ (NodeTable.numbered d.nodes.toArray) with
  | .error node => .error (.duplicateNode d.id node)
  | .ok byId =>
    match loadEdges d.id byId .empty d.edges with
    | .error e => .error e
    | .ok loaded =>
      .ok {
        id := d.id
        nodes := d.nodes.toArray
        edges := loaded.edges
        distinct := NodeTable.nodup_of_enterAll h
        byId
        asCause := loaded.asCause
        asEffect := loaded.asEffect
        byId_eq := NodeTable.eq_ofNodes_of_enterAll h
        asCause_eq := loaded.asCause_eq
        asEffect_eq := loaded.asEffect_eq }

/-- The document of a bundle. -/
def toDocument (b : Bundle) : BundleDocument :=
  { id := b.id
    nodes := b.nodes.toList
    edges := b.edges.toList.map fun e => ⟨b.nodes[e.cause].id, b.nodes[e.effect].id, e.relations⟩ }

/-- The edges in which a node is the cause, in their order. -/
def edgesAsCause (b : Bundle) (n : b.NodeIx) : List b.EdgeIx := b.asCause.row n

/-- The edges in which a node is the effect, in their order. -/
def edgesAsEffect (b : Bundle) (n : b.NodeIx) : List b.EdgeIx := b.asEffect.row n

/-- The edges at a node, each with the node at its other end: first those in which the node is the
cause, then those in which it is the effect. A loop occurs in both. -/
def stepsFrom (b : Bundle) (n : b.NodeIx) : List (b.EdgeIx × b.NodeIx) :=
  (b.edgesAsCause n).map (fun e => (e, (b.edge e).effect)) ++
    (b.edgesAsEffect n).map (fun e => (e, (b.edge e).cause))

/-- Reads a bundle from JSON; documents that are no bundles are refused. -/
def ofJson? (j : Json) : Option Bundle :=
  match BundleDocument.ofJson? j with
  | none => none
  | some d =>
    match ofDocument d with
    | .error _ => none
    | .ok b => some b

/-- The JSON form. -/
def toJson (b : Bundle) : Json := b.toDocument.toJson

end Bundle

end ProvenanceTrail
