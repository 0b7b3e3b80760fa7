/-!
# Words of a vocabulary

Kinds of nodes and relations are recognized in two ways: freely, with the letters in any case and an
optional `PROV_` in front, or by an exact spelling.
-/

namespace ProvenanceTrail.Text

/-- What follows a word at the front of a text. -/
def afterFront? : List Char → List Char → Option (List Char)
  | [], cs => some cs
  | _ :: _, [] => none
  | w :: word, c :: cs => if w = c then afterFront? word cs else none

/-- Whether a text starts with a word. -/
def startsWith (word text : String) : Bool :=
  (afterFront? word.toList text.toList).isSome

/-- The word in lower case, without a `PROV_` in front. -/
def plainWord (s : String) : String :=
  let cs := s.toList
  String.ofList (((afterFront? ['P', 'R', 'O', 'V', '_'] cs).getD cs).map Char.toLower)

/-- The meaning of a word in a table of spellings. -/
def meaning? {α : Type} (table : List (String × α)) (word : String) : Option α :=
  (table.find? fun entry => entry.1 == word).map (·.2)

end ProvenanceTrail.Text
