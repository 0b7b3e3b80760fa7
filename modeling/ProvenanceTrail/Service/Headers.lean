import ProvenanceTrail.Text.Word
/-!
# Headers

Headers of a request: their names in any case, the first of several equal names counting. A request is
known by the id that its sender gave it, or else by the trace that it belongs to.
-/

namespace ProvenanceTrail

/-- The headers of a request, in order. -/
abbrev Headers := List (String × String)

namespace Headers

/-- The characters of names that are neither letters nor digits. -/
def nameMarks : List Char :=
  ['!', '#', '$', '%', '&', '\x27', '*', '+', '-', '.', '^', '_', '\x60', '|', '~']

/-- Whether a character can be part of a name. -/
def isNameChar (c : Char) : Bool := c.isAlphanum || nameMarks.contains c

/-- Whether a text is a name of a header or of a method. -/
def isName (s : String) : Bool := s != "" && s.toList.all isNameChar

/-- Whether a text can be a value: it has no control characters but tabs. -/
def isValue (s : String) : Bool :=
  s.toList.all fun c => c == '\t' || (0x20 ≤ c.toNat && c.toNat != 0x7F)

/-- Whether a value can be read as text: it is in ASCII. -/
def isReadable (s : String) : Bool := s.toList.all fun c => c.toNat < 0x80

/-- Whether all headers are well formed. -/
def areValid (hs : Headers) : Bool := hs.all fun h => isName h.1 && isValue h.2

/-- A text in lower case. -/
def lower (s : String) : String := String.ofList (s.toList.map Char.toLower)

/-- The first value of a name that is given in lower case. -/
def first? (hs : Headers) (name : String) : Option String :=
  (hs.find? fun h => lower h.1 == name).map (·.2)

/-- The first value of a name, if it is readable. -/
def text? (hs : Headers) (name : String) : Option String := (first? hs name).filter isReadable

/-- The id by which a request is known, if it brings one: its own, or the trace, which ends at a
slash. -/
def correlationId? (hs : Headers) : Option String :=
  (text? hs "x-request-id").or
    ((text? hs "x-cloud-trace-context").map fun s => String.ofList (s.toList.takeWhile (· != '/')))

/-- Whether a character can be part of a word of a media type. -/
def isWordChar (c : Char) : Bool := isNameChar c

/-- Whether the parameters of a media type are well formed: after every semicolon and blanks a name,
an equals sign, and a word or a quoted text. -/
def areParameters : Nat → List Char → Bool
  | _, [] => true
  | 0, _ => false
  | fuel + 1, cs =>
    let cs := cs.dropWhile (· == ' ')
    let name := cs.takeWhile isWordChar
    match cs.drop name.length with
    | '=' :: '"' :: rest =>
      let afterQuote := (rest.dropWhile (· != '"')).drop 1
      !name.isEmpty && rest.contains '"' && (afterQuote.isEmpty || afterQuote.head? == some ';') &&
        areParameters fuel (afterQuote.drop 1)
    | '=' :: rest =>
      let after := rest.dropWhile isWordChar
      !name.isEmpty && (rest.takeWhile isWordChar != []) &&
        (after.isEmpty || after.head? == some ';') && areParameters fuel (after.drop 1)
    | _ => cs.isEmpty

/-- Whether a media type is JSON, or another one that is written in it. -/
def isJsonType (s : String) : Bool :=
  let cs := s.toList.map Char.toLower
  let type := cs.takeWhile isWordChar
  let rest := cs.drop type.length
  let subtype := (rest.drop 1).takeWhile isWordChar
  let parameters := rest.drop (1 + subtype.length)
  let isJson := subtype == "json".toList ||
    (subtype.contains '+' && subtype.reverse.takeWhile (· != '+') == "nosj".toList)
  type == "application".toList && rest.head? == some '/' && isJson &&
    (parameters.isEmpty ||
      (parameters.head? == some ';' && areParameters parameters.length (parameters.drop 1)))

/-- Whether the body of a request is said to be JSON. -/
def saysJson (hs : Headers) : Bool := (text? hs "content-type").any isJsonType

end Headers

end ProvenanceTrail
