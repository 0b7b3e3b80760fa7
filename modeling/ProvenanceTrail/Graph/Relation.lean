import ProvenanceTrail.Json.Form
import ProvenanceTrail.Json.Record
import ProvenanceTrail.Text.Word
/-!
# Relations

The fourteen ways in which the effect of an edge can depend on its cause.
-/

namespace ProvenanceTrail

/-- A kind of relation between the two ends of an edge. -/
inductive RelationKind where
  | derivation
  | specialization
  | usage
  | generation
  | association
  | attribution
  | delegation
  | communication
  | membership
  | invalidation
  | start
  | finish
  | influence
  | alternate
deriving DecidableEq, Repr

namespace RelationKind

/-- The name of a relation, as it is written. -/
def name : RelationKind → String
  | .derivation => "derivation"
  | .specialization => "specialization"
  | .usage => "usage"
  | .generation => "generation"
  | .association => "association"
  | .attribution => "attribution"
  | .delegation => "delegation"
  | .communication => "communication"
  | .membership => "membership"
  | .invalidation => "invalidation"
  | .start => "start"
  | .finish => "end"
  | .influence => "influence"
  | .alternate => "alternate"

/-- All relations. -/
def all : List RelationKind :=
  [.derivation, .specialization, .usage, .generation, .association, .attribution, .delegation,
    .communication, .membership, .invalidation, .start, .finish, .influence, .alternate]

/-- The words for the relations. -/
def words : List (String × RelationKind) := all.map fun k => (k.name, k)

/-- Recognizes a relation by its word, in any case and with or without `PROV_`. -/
def ofWord? (s : String) : Option RelationKind := Text.meaning? words (Text.plainWord s)

/-- The spellings that documents may use: the name, or `PROV_` and the name in capitals. -/
def spellings : List (String × RelationKind) :=
  words ++ all.map fun k => ("PROV_" ++ String.ofList (k.name.toList.map Char.toUpper), k)

/-- The JSON form. -/
def toJson (k : RelationKind) : Json := .string k.name

/-- The form of a relation in a text. -/
def form : Form := .word (spellings.map Prod.fst)

/-- Reads the JSON form from a medium. -/
def read? (m : Json.Medium) : Json → Option RelationKind := Json.wordIn? m (Text.meaning? spellings)

end RelationKind

end ProvenanceTrail
