import ProvenanceTrail.Condition.Parser
import ProvenanceTrail.Graph.Connector
import ProvenanceTrail.Graph.Token
/-!
# Queries

A query asks a bundle, entered at a node, for one of five kinds of answer. It is read once, before any
bundle is touched, and then evaluated against each bundle.
-/

namespace ProvenanceTrail

/-- The kind of answer that a query asks for. -/
inductive QueryType where
  | nodeIds
  | nodes
  | subgraphs
  | connectors
  | testFits
deriving DecidableEq, Repr

namespace QueryType

/-- All kinds, in the order in which they are listed. -/
def all : List QueryType := [.nodeIds, .nodes, .subgraphs, .connectors, .testFits]

/-- The word for a kind. -/
def name : QueryType → String
  | .nodeIds => "NODE_IDS"
  | .nodes => "NODES"
  | .subgraphs => "SUBGRAPHS"
  | .connectors => "CONNECTORS"
  | .testFits => "TEST_FITS"

/-- The JSON form. -/
def toJson (t : QueryType) : Json := .string t.name

/-- The form of a kind in a text. -/
def form : Form := .word (all.map name)

/-- Reads the JSON form. -/
def ofJson? : Json → Option QueryType := Json.word? (Text.meaning? (all.map fun t => (t.name, t)))

end QueryType

/-- A query that has been read. -/
inductive BundleQuery where
  | nodeIds (search : Findable)
  | nodes (search : Findable)
  | subgraphs (search : Findable)
  /-- connectors of a direction, or of both when none is given -/
  | connectors (direction : Option Direction)
  | testFits (condition : Condition BundlePredicate)

/-- A subgraph with its nodes and edges written out. -/
structure SubgraphDocument where
  nodes : List Node
  edges : List EdgeDocument
deriving DecidableEq, Repr

namespace SubgraphDocument

/-- Writes out a subgraph. -/
def ofSubgraph (b : Bundle) (s : Subgraph b) : SubgraphDocument :=
  { nodes := s.nodes.map b.node
    edges := s.edges.map fun e =>
      ⟨(b.node (b.edge e).cause).id, (b.node (b.edge e).effect).id, (b.edge e).relations⟩ }

/-- The JSON form. -/
def toJson (d : SubgraphDocument) : Json :=
  .object [("nodes", .array (d.nodes.map Node.toJson)),
    ("edges", .array (d.edges.map EdgeDocument.toJson))]

/-- The form of a subgraph in a text. -/
def form : Form := .record [Form.needed "nodes" (.list Node.form), Form.needed "edges" (.list EdgeDocument.form)]

/-- Reads the JSON form from a medium. -/
def read? (m : Json.Medium) (j : Json) : Option SubgraphDocument := do
  match ← j.fields? ["nodes", "edges"] with
  | [nodes, edges] =>
    let nodes ← Json.required? (Json.list? (Node.read? m)) nodes
    let edges ← Json.required? (Json.list? (EdgeDocument.read? m)) edges
    pure ⟨nodes, edges⟩
  | _ => none

end SubgraphDocument

/-- The answer to a query. -/
inductive QueryResult where
  | nodeIds (names : List QualifiedName)
  | nodes (nodes : List Node)
  | subgraphs (subgraphs : List SubgraphDocument)
  | connectors (connectors : List Connector)
  | testFits (fits : Bool)
deriving DecidableEq, Repr

namespace QueryResult

/-- Whether the answer carries nothing. -/
def isEmpty : QueryResult → Bool
  | .nodeIds names => names.isEmpty
  | .nodes ns => ns.isEmpty
  | .subgraphs found => found.isEmpty
  | .connectors found => found.isEmpty
  | .testFits fits => !fits

/-- The kind of an answer. -/
def type : QueryResult → QueryType
  | .nodeIds _ => .nodeIds
  | .nodes _ => .nodes
  | .subgraphs _ => .subgraphs
  | .connectors _ => .connectors
  | .testFits _ => .testFits

/-- The JSON form of what is answered. -/
def valueToJson : QueryResult → Json
  | .nodeIds names => .array (names.map QualifiedName.toJson)
  | .nodes ns => .array (ns.map Node.toJson)
  | .subgraphs found => .array (found.map SubgraphDocument.toJson)
  | .connectors found => .array (found.map Connector.toJson)
  | .testFits fits => .bool fits

/-- The JSON form. -/
def toJson (r : QueryResult) : Json :=
  .object [("type", r.type.toJson), ("value", r.valueToJson)]

/-- What the value of an answer is read from. A value that stands in front of the type is a copy. -/
def medium : Json → Json.Medium
  | .object members =>
    let keys := members.map Prod.fst
    if keys.idxOf "value" < keys.idxOf "type" then .copy else .text
  | _ => .text

/-- The kind of an answer, and what its value is written as. -/
def split? (j : Json) : Option (QueryType × Option Json) := do
  match ← j.fields? ["type", "value"] with
  | [type, value] => (Json.required? QueryType.ofJson? type).map (·, value)
  | _ => none

/-- Reads what is answered from a medium. -/
def ofValue? (m : Json.Medium) (type : QueryType) (value : Option Json) : Option QueryResult :=
  match type with
  | .nodeIds => (Json.required? (Json.list? QualifiedName.ofJson?) value).map .nodeIds
  | .nodes => (Json.required? (Json.list? (Node.read? m)) value).map .nodes
  | .subgraphs => (Json.required? (Json.list? (SubgraphDocument.read? m)) value).map .subgraphs
  | .connectors => (Json.required? (Json.list? Connector.ofJson?) value).map .connectors
  | .testFits => (Json.required? Json.bool? value).map .testFits

/-- Reads the JSON form. -/
def ofJson? (j : Json) : Option QueryResult := do
  let (type, value) ← split? j
  ofValue? (medium j) type value

/-- The form of an answer in a text, for a form of its value. -/
def form (value : Form) : Form := .record [Form.needed "type" QueryType.form, Form.needed "value" value]

/-- The form of the value of an answer, for what it is read from and the kind of the answer. A copy is kept
whole. -/
def valueForm : Json.Medium → QueryType → Form
  | .copy, _ => .anything
  | .text, .nodeIds => .list QualifiedName.form
  | .text, .nodes => .list Node.form
  | .text, .subgraphs => .list SubgraphDocument.form
  | .text, .connectors => .list Connector.form
  | .text, .testFits => .flag

/-- The answer that a text writes. What it is read as is seen from the text without the value. -/
def ofText? (text : String) : Option QueryResult := do
  let outline ← Json.readAs? (form .skipped) text
  let (type, _) ← split? outline
  let j ← Json.readAs? (form (valueForm (medium outline) type)) text
  ofJson? j

end QueryResult

/-- The source of the pattern for the types of the connectors of a direction. -/
def connectorPattern (direction : Option Direction) : String :=
  let kind := match direction with
    | some .backward => "backward"
    | some .forward => "forward"
    | none => "(backward|forward)"
  Pattern.escape Vocabulary.cpm ++ kind ++ "Connector"

/-- The connectors of a direction, or of both, on the derivation path from the entry node. -/
def discoverConnectors (v : BundleView) (direction : Option Direction) :
    Except ConditionError (List Connector) :=
  let source := connectorPattern direction
  match NodePredicate.hasNameValue? Vocabulary.type source with
  | none => .error (.configuration (.invalidPattern source))
  | some predicate => do
    let path : Findable := .derivationPath (direction.map Direction.isBackward)
    let found ← (Findable.fittingNodes (some (.leaf predicate)) (some path)).find v
    pure ((Subgraph.distinctNodes found).map (Connector.ofNode v.bundle))

namespace BundleQuery

/-- Reads a search; a condition on nodes stands for the nodes that satisfy it, among those reachable
from the entry node. -/
def searchOfJson (j : Json) : Except ConditionError Findable :=
  match (j.get? "type").bind Json.string? with
  | some tag =>
    if Findable.tags.contains tag then Findable.ofJson j
    else (Condition.nodeOfJson j).map fun c => .fittingNodes (some c) none
  | none => (Condition.nodeOfJson j).map fun c => .fittingNodes (some c) none

/-- Reads the direction of a connector query: a truth value or a word in any case, possibly as the
field `backward` of an object. Nothing, or `null`, stands for both directions. -/
def directionOfJson (j : Json) : Except ConditionError (Option Direction) :=
  let invalid : ConditionError := .configuration (.invalidDirection j.canonical)
  match j with
  | .null => .ok none
  | .bool backward => .ok (some (.ofBackward backward))
  | .string s =>
    match String.ofList (s.toList.map Char.toLower) with
    | "backward" => .ok (some .backward)
    | "forward" => .ok (some .forward)
    | _ => .error invalid
  | .object members =>
    match Members.field? members "backward" with
    | none => .ok none
    | some (.bool backward) => .ok (some (.ofBackward backward))
    | some _ => .error invalid
  | _ => .error invalid

/-- Reads the specification of a query. -/
def ofJson (type : QueryType) (specification : Json) : Except ConditionError BundleQuery :=
  match type with
  | .nodeIds => (searchOfJson specification).map .nodeIds
  | .nodes => (searchOfJson specification).map .nodes
  | .subgraphs => (Findable.ofJson specification).map .subgraphs
  | .connectors => (directionOfJson specification).map .connectors
  | .testFits => (Condition.bundleOfJson specification).map .testFits

/-- The kind of answer that the query asks for. -/
def type : BundleQuery → QueryType
  | .nodeIds _ => .nodeIds
  | .nodes _ => .nodes
  | .subgraphs _ => .subgraphs
  | .connectors _ => .connectors
  | .testFits _ => .testFits

/-- The different nodes that a search finds. -/
def foundNodes (v : BundleView) (search : Findable) :
    Except ConditionError (List v.bundle.NodeIx) :=
  (search.find v).map Subgraph.distinctNodes

/-- Evaluates the query against a bundle that has been entered. -/
def evalView (v : BundleView) : BundleQuery → Except ConditionError QueryResult
  | .nodeIds search =>
    (foundNodes v search).map fun ns => .nodeIds (ns.map fun n => (v.bundle.node n).id)
  | .nodes search => (foundNodes v search).map fun ns => .nodes (ns.map v.bundle.node)
  | .subgraphs search =>
    (search.find v).map fun found => .subgraphs (found.map (SubgraphDocument.ofSubgraph v.bundle))
  | .connectors direction => (discoverConnectors v direction).map .connectors
  | .testFits condition => (condition.testBundle v).map .testFits

/-- Evaluates the query against a bundle entered at a node, or at its default start. -/
def eval (b : Bundle) (entry : Option QualifiedName) (q : BundleQuery) :
    Except ConditionError QueryResult := do
  let v ← b.enter entry
  q.evalView v

end BundleQuery

/-- A query sent to a service for one of its bundles. -/
structure BundleQueryRequest where
  bundleId : QualifiedName
  startNodeId : Option QualifiedName
  queryType : QueryType
  querySpecification : Json

namespace BundleQueryRequest

/-- Reads the JSON form. -/
def ofJson? (j : Json) : Option BundleQueryRequest := do
  match ← j.fields? ["bundleId", "startNodeId", "queryType", "querySpecification"] with
  | [bundleId, startNodeId, queryType, specification] =>
    let bundleId ← Json.required? QualifiedName.ofJson? bundleId
    let startNodeId ← Json.optional? QualifiedName.ofJson? startNodeId
    let queryType ← Json.required? QueryType.ofJson? queryType
    let specification := (specification.map Json.normalize).getD .null
    pure ⟨bundleId, startNodeId, queryType, specification⟩
  | _ => none

end BundleQueryRequest

/-- The answer of a service to a query. -/
structure BundleQueryResponse where
  token : Option Token
  result : QueryResult

namespace BundleQueryResponse

/-- The JSON form. -/
def toJson (r : BundleQueryResponse) : Json :=
  .object (Json.memberIfSome "token" Token.toJson r.token ++ [("result", r.result.toJson)])

end BundleQueryResponse

end ProvenanceTrail
