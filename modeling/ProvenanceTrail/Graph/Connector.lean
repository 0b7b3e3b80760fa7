import ProvenanceTrail.Graph.Vocabulary
import ProvenanceTrail.Condition.Findable
/-!
# Connectors

A connector is a node that refers to another bundle. Forward connectors lead to bundles that build on
this one, backward connectors to those it builds on. Bundles are entered at a connector unless another
node is asked for.
-/

namespace ProvenanceTrail

/-- The direction of a search. -/
inductive Direction where
  | backward
  | forward
deriving DecidableEq, Repr

namespace Direction

/-- Whether the direction is backward. -/
def isBackward : Direction → Bool
  | .backward => true
  | .forward => false

/-- The direction that a truth value stands for. -/
def ofBackward (backward : Bool) : Direction := if backward then .backward else .forward

/-- The word for a direction. -/
def name : Direction → String
  | .backward => "backward"
  | .forward => "forward"

/-- Reads the JSON form. -/
def ofJson? : Json → Option Direction :=
  Json.word? (Text.meaning? [("backward", .backward), ("forward", .forward)])

/-- The type of the connectors of a direction. -/
def connectorType : Direction → String
  | .backward => Vocabulary.backwardConnector
  | .forward => Vocabulary.forwardConnector

end Direction

namespace Bundle

/-- Whether a node has a type. -/
def hasType (b : Bundle) (n : b.NodeIx) (typeUri : String) : Bool :=
  (b.node n).hasNameValue Vocabulary.type typeUri

/-- Whether a node is a connector of a direction, or of any when none is given. -/
def isConnector (b : Bundle) (n : b.NodeIx) : Option Direction → Bool
  | some d => b.hasType n d.connectorType
  | none => b.hasType n Vocabulary.forwardConnector || b.hasType n Vocabulary.backwardConnector

/-- The first main activity. -/
def mainActivity? (b : Bundle) : Option b.NodeIx :=
  b.nodeIndices.find? fun n => b.hasType n Vocabulary.mainActivity

/-- The meta-bundle that the main activity names. -/
def metaBundle? (b : Bundle) : Option QualifiedName :=
  b.mainActivity?.bind fun n => (b.node n).nameValue? Vocabulary.referencedMetaBundleId

/-- Where a bundle is entered when nothing else is said: at its first forward connector, else at its
first backward connector, else at its main activity, else at its first node. -/
def defaultStart? (b : Bundle) : Option b.NodeIx :=
  let first (d : Direction) := b.nodeIndices.find? fun n => b.isConnector n (some d)
  (first .forward).or ((first .backward).or (b.mainActivity?.or b.nodeIndices.head?))

/-- The steps of the search for a general connector: the connector itself, then a more general forward
connector that it specializes. -/
def isGeneralization (b : Bundle) (position : Nat) (s : Step b) : Except Empty Bool :=
  match position, s.edge with
  | 0, _ => .ok true
  | _, none => .ok false
  | _, some e =>
    .ok ((b.edge e).hasRelation .specialization && (b.edge e).cause == s.node &&
      b.isConnector s.node (some .forward))

/-- The general form of a connector. A forward connector may specialize another one, which is then the
one that other bundles know; any other node is its own general form. -/
def generalConnector (b : Bundle) (n : b.NodeIx) : b.NodeIx :=
  if !b.isConnector n (some .forward) then n
  else
    match b.linearPaths b.isGeneralization 2 n with
    | .ok paths => ((paths.head?.bind List.getLast?).map Step.node).getD n

/-- Enters a bundle at a node, or at its default start when none is asked for. -/
def enter (b : Bundle) : Option QualifiedName → Except ConditionError BundleView
  | none => .ok ⟨b, b.defaultStart?⟩
  | some id =>
    match b.find? id with
    | some n => .ok ⟨b, some n⟩
    | none => .error (.startNodeNotFound id b.id)

end Bundle

/-- What a connector says of the bundle it refers to. -/
structure Connector where
  id : QualifiedName
  referencedConnectorId : QualifiedName
  referencedBundleId : Option QualifiedName
  referencedMetaBundleId : Option QualifiedName
  referencedBundleHashValue : Option String
  hashAlg : Option String
  provenanceServiceUri : Option String
deriving DecidableEq, Repr

namespace Connector

/-- The record of a connector node. The connector it refers to is its general form. -/
def ofNode (b : Bundle) (n : b.NodeIx) : Connector :=
  let node := b.node n
  { id := node.id
    referencedConnectorId := (b.node (b.generalConnector n)).id
    referencedBundleId := node.nameValue? Vocabulary.referencedBundleId
    referencedMetaBundleId := node.nameValue? Vocabulary.referencedMetaBundleId
    referencedBundleHashValue := node.textValue? Vocabulary.referencedBundleHashValue
    hashAlg := node.textValue? Vocabulary.hashAlg
    provenanceServiceUri := node.textValue? Vocabulary.provenanceServiceUri }

/-- The JSON form; what is missing is written as `null`. -/
def toJson (c : Connector) : Json :=
  .object [("id", c.id.toJson), ("referencedConnectorId", c.referencedConnectorId.toJson),
    ("referencedBundleId", Json.ofOption QualifiedName.toJson c.referencedBundleId),
    ("referencedMetaBundleId", Json.ofOption QualifiedName.toJson c.referencedMetaBundleId),
    ("referencedBundleHashValue", Json.ofOption .string c.referencedBundleHashValue),
    ("hashAlg", Json.ofOption .string c.hashAlg),
    ("provenanceServiceUri", Json.ofOption .string c.provenanceServiceUri)]

/-- The form of a connector in a text. -/
def form : Form :=
  .record [Form.needed "id" QualifiedName.form, Form.needed "referencedConnectorId" QualifiedName.form,
    Form.spare "referencedBundleId" (.optional QualifiedName.form),
    Form.spare "referencedMetaBundleId" (.optional QualifiedName.form),
    Form.spare "referencedBundleHashValue" (.optional .text), Form.spare "hashAlg" (.optional .text),
    Form.spare "provenanceServiceUri" (.optional .text)]

/-- Reads the JSON form. -/
def ofJson? (j : Json) : Option Connector := do
  let names := ["id", "referencedConnectorId", "referencedBundleId", "referencedMetaBundleId",
    "referencedBundleHashValue", "hashAlg", "provenanceServiceUri"]
  let complete := match j with
    | .array items => items.length == names.length
    | _ => true
  if !complete then none
  else
    match ← j.fields? names with
    | [id, referencedConnectorId, bundle, metaBundle, hash, hashAlg, service] =>
      let id ← Json.required? QualifiedName.ofJson? id
      let referencedConnectorId ← Json.required? QualifiedName.ofJson? referencedConnectorId
      let bundle ← Json.optional? QualifiedName.ofJson? bundle
      let metaBundle ← Json.optional? QualifiedName.ofJson? metaBundle
      let hash ← Json.optional? Json.string? hash
      let hashAlg ← Json.optional? Json.string? hashAlg
      let service ← Json.optional? Json.string? service
      pure ⟨id, referencedConnectorId, bundle, metaBundle, hash, hashAlg, service⟩
    | _ => none

end Connector

end ProvenanceTrail
