import ProvenanceTrail.Json.Form
import ProvenanceTrail.Json.Record
/-!
# Qualified names

A name is a namespace and a local part. Its URI is their concatenation, but names are told apart by
the pair, so two different names can share a URI.
-/

namespace ProvenanceTrail

/-- A namespace and a local part. -/
structure QualifiedName where
  nameSpace : String
  localPart : String
deriving DecidableEq, Repr, Inhabited

namespace QualifiedName

/-- The characters that end a namespace. -/
def isSeparator (c : Char) : Bool := c == '/' || c == '#'

/-- Splits a URI after its last separator; without one the namespace is empty. -/
def ofUri (uri : String) : QualifiedName :=
  let backwards := uri.toList.reverse
  let ofBackwards (cs : List Char) : String := String.ofList cs.reverse
  ⟨ofBackwards (backwards.dropWhile fun c => !isSeparator c),
    ofBackwards (backwards.takeWhile fun c => !isSeparator c)⟩

/-- Namespace and local part written one after the other. -/
def uri (n : QualifiedName) : String := n.nameSpace ++ n.localPart

/-- Names are ordered by namespace, then by local part. -/
def blt (a b : QualifiedName) : Bool :=
  a.nameSpace < b.nameSpace || (a.nameSpace == b.nameSpace && a.localPart < b.localPart)

instance : ToString QualifiedName := ⟨uri⟩

/-- The names in ascending order, each once. -/
def sortDistinct (names : List QualifiedName) : List QualifiedName :=
  (names.mergeSort fun a b => !b.blt a).eraseReps

/-- The JSON form. -/
def toJson (n : QualifiedName) : Json :=
  .object [("nameSpaceUri", .string n.nameSpace), ("localPart", .string n.localPart)]

/-- The form of a name in a text. -/
def form : Form := .record [Form.needed "nameSpaceUri" .text, Form.needed "localPart" .text]

/-- Reads the JSON form. -/
def ofJson? (j : Json) : Option QualifiedName := do
  match ← j.fields? ["nameSpaceUri", "localPart"] with
  | [nameSpace, localPart] =>
    let nameSpace ← Json.required? Json.string? nameSpace
    let localPart ← Json.required? Json.string? localPart
    pure ⟨nameSpace, localPart⟩
  | _ => none

end QualifiedName

end ProvenanceTrail
