import ProvenanceTrail.Json.Token
/-!
# Reading JSON

The reader walks once over the lexemes of a text with a stack of the arrays and objects that are still
open. `Json.readFront?` stops after the first value, `Json.read?` demands that nothing follows it.
Values are nested at most 127 deep.
-/

namespace ProvenanceTrail.Json

/-- An array or object that is still open: its items or members so far, latest first; an object also
holds the key whose value is being read. -/
inductive Frame where
  | array (items : List Json)
  | object (members : List (String × Json)) (key : String)

/-- What may come next. -/
inductive Expected where
  /-- a value -/
  | value
  /-- an item, or the end of an array that has none yet -/
  | firstItem
  /-- a key, or the end of an object that has none yet -/
  | firstKey (members : List (String × Json))
  /-- a key -/
  | key (members : List (String × Json))
  /-- the colon after a key -/
  | colon (members : List (String × Json)) (key : String)
  /-- a comma or the end of the innermost open array or object -/
  | separator

/-- The greatest number of arrays and objects open at once. -/
def maxDepth : Nat := 127

/-- What is expected after a value. With nothing open the text is complete. -/
inductive Progress where
  | complete (value : Json)
  | open (stack : List Frame)

/-- Puts a finished value where it belongs. -/
def finish (value : Json) : List Frame → Progress
  | [] => .complete value
  | .array items :: stack => .open (.array (value :: items) :: stack)
  | .object members key :: stack => .open (.object ((key, value) :: members) key :: stack)

/-- Reads on with a stack of open values; gives the value and the lexemes after it. -/
def readFrom (stack : List Frame) (expected : Expected) : List Lexeme → Option (Json × List Lexeme)
  | [] => none
  | lexeme :: rest =>
    let close (value : Json) (stack : List Frame) : Option (Json × List Lexeme) :=
      match finish value stack with
      | .complete v => some (v, rest)
      | .open stack => readFrom stack .separator rest
    let start (lexeme : Lexeme) : Option (Json × List Lexeme) :=
      match lexeme with
      | .null => close .null stack
      | .bool b => close (.bool b) stack
      | .number n => close (.number n) stack
      | .string s => close (.string s) stack
      | .openBracket =>
        if stack.length < maxDepth then readFrom (.array [] :: stack) .firstItem rest else none
      | .openBrace =>
        if stack.length < maxDepth then readFrom stack (.firstKey []) rest else none
      | _ => none
    match expected with
    | .value => start lexeme
    | .firstItem =>
      match lexeme, stack with
      | .closeBracket, .array _ :: outer => close (.array []) outer
      | _, _ => start lexeme
    | .firstKey members =>
      match lexeme with
      | .closeBrace => close (.object []) stack
      | .string key => readFrom stack (.colon members key) rest
      | _ => none
    | .key members =>
      match lexeme with
      | .string key => readFrom stack (.colon members key) rest
      | _ => none
    | .colon members key =>
      match lexeme with
      | .colon => readFrom (.object members key :: stack) .value rest
      | _ => none
    | .separator =>
      match lexeme, stack with
      | .comma, .array items :: outer => readFrom (.array items :: outer) .value rest
      | .closeBracket, .array items :: outer => close (.array items.reverse) outer
      | .comma, .object members _ :: outer => readFrom outer (.key members) rest
      | .closeBrace, .object members _ :: outer => close (.object members.reverse) outer
      | _, _ => none

/-- The value at the front of a text, members as written, and the lexemes that follow it. -/
def readFront? (text : String) : Option (Json × List Lexeme) :=
  readFrom [] .value (Lexeme.scan text.toList)

/-- The value of a text that holds nothing else. -/
def read? (text : String) : Option Json :=
  match readFront? text with
  | some (value, []) => some value
  | _ => none

end ProvenanceTrail.Json
