import ProvenanceTrail.Graph.Name
import ProvenanceTrail.Text.Word
import ProvenanceTrail.Time.Timestamp
/-!
# Nodes

A node is an activity, an entity or an agent with attributes. Attributes are kept as a map from the
attribute's URI to its values: URIs ascending, values in the order they were given.

A value of an attribute is written as an object that has its type as a member. It may also be given as an array
that starts with the type. The type may stand anywhere in the object, so the value is a copy until it is found.
-/

namespace ProvenanceTrail

/-- The kind of a node. -/
inductive NodeKind where
  | activity
  | entity
  | agent
deriving DecidableEq, Repr

namespace NodeKind

/-- The name of a kind, as it is written. -/
def name : NodeKind → String
  | .activity => "Activity"
  | .entity => "Entity"
  | .agent => "Agent"

/-- The words for the kinds. -/
def words : List (String × NodeKind) :=
  [("activity", .activity), ("entity", .entity), ("agent", .agent)]

/-- Recognizes a kind by its word, in any case and with or without `PROV_`. -/
def ofWord? (s : String) : Option NodeKind := Text.meaning? words (Text.plainWord s)

/-- The spellings that documents may use. -/
def spellings : List (String × NodeKind) :=
  [("Activity", .activity), ("activity", .activity), ("PROV_ACTIVITY", .activity),
    ("Entity", .entity), ("entity", .entity), ("PROV_ENTITY", .entity),
    ("Agent", .agent), ("agent", .agent), ("PROV_AGENT", .agent)]

/-- The JSON form. -/
def toJson (k : NodeKind) : Json := .string k.name

/-- The form of a kind in a text. -/
def form : Form := .word (spellings.map Prod.fst)

/-- Reads the JSON form from a medium. -/
def read? (m : Json.Medium) : Json → Option NodeKind := Json.wordIn? m (Text.meaning? spellings)

end NodeKind

/-- A value of an attribute. -/
inductive AttributeValue where
  | string (text : String)
  | langString (text : String) (lang : Option String)
  | qualifiedName (name : QualifiedName)
  | timestamp (time : Timestamp)
deriving DecidableEq, Repr

namespace AttributeValue

/-- Whether the value says anything: texts and names may be empty. -/
def isPresent : AttributeValue → Bool
  | .string text => text != ""
  | .langString text _ => text != ""
  | .qualifiedName name => name.uri != ""
  | .timestamp _ => true

/-- The text of a string, with or without a language. -/
def text? : AttributeValue → Option String
  | .string text => some text
  | .langString text _ => some text
  | _ => none

/-- The name, if the value is one. -/
def name? : AttributeValue → Option QualifiedName
  | .qualifiedName name => some name
  | _ => none

/-- The JSON form. -/
def toJson : AttributeValue → Json
  | .string text => .object [("type", .string "string"), ("value", .string text)]
  | .langString text lang =>
    .object ([("type", .string "langString"), ("value", .string text)] ++
      Json.memberIfSome "lang" .string lang)
  | .qualifiedName name => .object [("type", .string "qualifiedName"), ("value", name.toJson)]
  | .timestamp time => .object [("type", .string "timestamp"), ("value", .string time.toText)]

/-- The types of values, as they are written. -/
inductive Tag where
  | string
  | langString
  | qualifiedName
  | timestamp

namespace Tag

/-- The words for the types, in their order. -/
def words : List (String × Tag) :=
  [("string", .string), ("langString", .langString), ("qualifiedName", .qualifiedName), ("timestamp", .timestamp)]

/-- Reads the JSON form from a medium. In a copy a type may also be given by its place among them. -/
def read? (m : Json.Medium) : Json → Option Tag
  | .string s => Text.meaning? words s
  | .number (.natural n) => if m = .copy then words[n]?.map Prod.snd else none
  | _ => none

/-- The fields of the values of a type, in their order. -/
def fields : Tag → List String
  | .langString => ["value", "lang"]
  | _ => ["value"]

end Tag

/-- The type of a value, and the value that has the fields of this type: the same object, or the array without
its first item. -/
def split? : Json → Option (Json × Json)
  | .object members =>
    match Json.fields? ["type"] (.object members) with
    | some [some tag] => some (tag, .object members)
    | _ => none
  | .array (tag :: content) => some (tag, .array content)
  | _ => none

/-- Reads the fields of a type. -/
def ofFields? : Tag → List (Option Json) → Option AttributeValue
  | .string, [value] => (Json.required? Json.string? value).map .string
  | .langString, [value, lang] => do
    let text ← Json.required? Json.string? value
    (Json.optional? Json.string? lang).map (.langString text)
  | .qualifiedName, [value] => (Json.required? QualifiedName.ofJson? value).map .qualifiedName
  | .timestamp, [value] => do
    let text ← Json.required? Json.string? value
    (Timestamp.ofText? text).map .timestamp
  | _, _ => none

/-- Reads the JSON form from a medium; the type says how the value is read. -/
def read? (m : Json.Medium) (j : Json) : Option AttributeValue := do
  let (tag, content) ← split? j
  let tag ← Tag.read? m tag
  ofFields? tag (← content.fields? tag.fields)

end AttributeValue

/-- A node of a bundle. -/
structure Node where
  id : QualifiedName
  kind : NodeKind
  attributes : List (String × List AttributeValue)
deriving DecidableEq, Repr

namespace Node

/-- A node without attributes. -/
def bare (id : QualifiedName) (kind : NodeKind) : Node := ⟨id, kind, []⟩

/-- The values of an attribute, in the order they were given. -/
def values (n : Node) (uri : String) : List AttributeValue :=
  (Text.meaning? n.attributes uri).getD []

/-- Adds a value behind those that the attribute has. -/
def withAttribute (n : Node) (uri : String) (value : AttributeValue) : Node :=
  { n with attributes := Json.insertMember uri (n.values uri ++ [value]) n.attributes }

/-- The first name among the values of an attribute. -/
def nameValue? (n : Node) (uri : String) : Option QualifiedName :=
  (n.values uri).findSome? AttributeValue.name?

/-- The first text among the values of an attribute. -/
def textValue? (n : Node) (uri : String) : Option String :=
  (n.values uri).findSome? AttributeValue.text?

/-- Whether a name with the given URI is among the values of an attribute. -/
def hasNameValue (n : Node) (uri valueUri : String) : Bool :=
  (n.values uri).any fun v => v.name?.any fun name => name.uri == valueUri

/-- The JSON form. -/
def toJson (n : Node) : Json :=
  .object [("id", n.id.toJson), ("kind", n.kind.toJson),
    ("attributes", .object (n.attributes.map fun a => (a.1, .array (a.2.map AttributeValue.toJson))))]

/-- The form of a node in a text. The values of attributes are kept until it is known what they are. -/
def form : Form :=
  .record [Form.needed "id" QualifiedName.form, Form.needed "kind" NodeKind.form,
    Form.spare "attributes" (.entries (.list .anything))]

/-- Reads the attributes from a medium; of equal URIs the last counts. -/
def readAttributes? (m : Json.Medium) : Json → Option (List (String × List AttributeValue))
  | .object members =>
    (members.mapM fun a => (Json.list? (AttributeValue.read? m) a.2).map fun vs => (a.1, vs)).map
      Json.sortMembers
  | _ => none

/-- Reads the JSON form from a medium. -/
def read? (m : Json.Medium) (j : Json) : Option Node := do
  match ← j.fields? ["id", "kind", "attributes"] with
  | [id, kind, attributes] =>
    let id ← Json.required? QualifiedName.ofJson? id
    let kind ← Json.required? (NodeKind.read? m) kind
    let attributes ← Json.defaulted? (readAttributes? m) [] attributes
    pure ⟨id, kind, attributes⟩
  | _ => none

/-- Reads the JSON form. -/
def ofJson? : Json → Option Node := read? .text

end Node

end ProvenanceTrail
