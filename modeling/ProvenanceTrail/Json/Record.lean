import ProvenanceTrail.Json.Basic
/-!
# Records in JSON

A record is written as an object and may also be given as the array of its fields in their declared
order, where fields at the end may be left out. Unknown members of an object are ignored; a field
that occurs twice is refused.

A word of a fixed vocabulary is a string, or an object whose only member has the word as its key and
`null` as its value. In a value that was kept as a copy before it was known what it is, the object may also have
an empty object as its value.
-/

namespace ProvenanceTrail.Json

/-- How often a key occurs among members. -/
def occurrences (key : String) (members : List (String × Json)) : Nat :=
  members.countP fun m => m.1 == key

/-- The fields of a record, in the order of their names; `none` stands for a field that is missing. -/
def fields? (names : List String) : Json → Option (List (Option Json))
  | .object members =>
    if names.any fun name => 1 < occurrences name members then none
    else some (names.map fun name => lookup name members)
  | .array items =>
    if names.length < items.length then none
    else some (items.map some ++ List.replicate (names.length - items.length) none)
  | _ => none

/-- A field that must be there. -/
def required? {α : Type} (read : Json → Option α) : Option Json → Option α
  | none => none
  | some v => read v

/-- A field that may be missing or `null`. -/
def optional? {α : Type} (read : Json → Option α) : Option Json → Option (Option α)
  | none => some none
  | some .null => some none
  | some v => (read v).map some

/-- A field that has a default when it is missing. -/
def defaulted? {α : Type} (read : Json → Option α) (default : α) : Option Json → Option α
  | none => some default
  | some v => read v

/-- A list of values. -/
def list? {α : Type} (read : Json → Option α) : Json → Option (List α)
  | .array items => items.mapM read
  | _ => none

/-- What a value is read from: the text itself, or a copy of it. -/
inductive Medium where
  | text
  | copy
deriving DecidableEq, Repr

/-- A word of a vocabulary, read from a medium. -/
def wordIn? {α : Type} (m : Medium) (vocabulary : String → Option α) : Json → Option α
  | .string s => vocabulary s
  | .object [(s, .null)] => vocabulary s
  | .object [(s, .object [])] => if m = .copy then vocabulary s else none
  | _ => none

/-- A word of a vocabulary. -/
def word? {α : Type} (vocabulary : String → Option α) : Json → Option α := wordIn? .text vocabulary

/-- A member of a record that is written only when it has a value. -/
def memberIfSome {α : Type} (name : String) (write : α → Json) : Option α → List (String × Json)
  | none => []
  | some a => [(name, write a)]

end ProvenanceTrail.Json
