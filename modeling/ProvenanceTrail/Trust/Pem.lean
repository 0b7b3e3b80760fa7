import ProvenanceTrail.Text.Blank
import ProvenanceTrail.Text.Word
import ProvenanceTrail.Trust.Base64
/-!
# Text armour

Certificates and keys come as base64 text between a line that names their kind and one that repeats
it. Certificates are read leniently: the first block of a text counts, and lines may have any length.
Private keys are read strictly: lines of 64 characters, and nothing after the block.
-/

namespace ProvenanceTrail.Pem

/-- A block of armour: the kind that it names, and its bytes. -/
structure Block where
  label : String
  contents : List UInt8
deriving DecidableEq, Repr

/-- Looks for a marker of which the characters `rest` are still to come, and gives what stands before
it, latest first, and after it. A character that breaks the marker off does not start it anew. -/
def scan (marker : List Char) : List Char → List Char → List Char → Option (List Char × List Char)
  | [], before, after => some (before.drop marker.length, after)
  | _ :: _, _, [] => none
  | c :: rest, before, d :: after =>
    if d = c then scan marker rest (d :: before) after else scan marker marker (d :: before) after
termination_by structural _ _ after => after

/-- What stands before a marker, and after it. -/
def splitAt? (marker text : List Char) : Option (List Char × List Char) :=
  (scan marker marker [] text).map fun r => (r.1.reverse, r.2)

/-- Drops spaces, tabs and line ends. -/
def skipSpace (cs : List Char) : List Char :=
  cs.dropWhile fun c => c == ' ' || c == '\t' || c == '\n' || c == '\r'

/-- The lines of a text, without the blanks at their ends. -/
def lines (cs : List Char) : List (List Char) :=
  (cs.splitOn '\n').map (Text.dropEndWhile Text.isBlank)

/-- The header lines of a block, up to an empty line, and what follows them. -/
def splitHeaders (body : List Char) : List Char × List Char :=
  match splitAt? ['\n', '\n'] body with
  | some split => split
  | none => (splitAt? ['\r', '\n', '\r', '\n'] body).getD ([], body)

/-- Reads the first block of a text. -/
def firstBlock? (text : String) : Option Block := do
  let (_, cs) ← splitAt? "-----BEGIN ".toList text.toList
  let (label, cs) ← splitAt? "-----".toList cs
  let (body, cs) ← splitAt? "-----END ".toList (skipSpace cs)
  let (label', _) ← splitAt? "-----".toList cs
  let (headers, data) := splitHeaders body
  if label.isEmpty || label != label' then none
  else if (lines headers).any fun line => !line.isEmpty && !line.contains ':' then none
  else (Base64.decode? (lines data).flatten).map fun bytes => ⟨String.ofList label, bytes⟩

/-- What follows a line end. -/
def afterLineEnd? : List Char → Option (List Char)
  | '\r' :: '\n' :: cs => some cs
  | '\r' :: cs => some cs
  | '\n' :: cs => some cs
  | _ => none

/-- The text before a line end that closes it. -/
def beforeLineEnd? (cs : List Char) : Option (List Char) :=
  match cs.reverse with
  | '\n' :: '\r' :: before => some before.reverse
  | '\n' :: before => some before.reverse
  | '\r' :: before => some before.reverse
  | _ => none

/-- The text before an end that it has. -/
def beforeEnd? (ending cs : List Char) : Option (List Char) :=
  (Text.afterFront? ending.reverse cs.reverse).map List.reverse

/-- The characters of a line. -/
def lineWidth : Nat := 64

/-- Joins at most `fuel` lines that are all full except for the last. -/
def joinLines? : Nat → List Char → Option (List Char)
  | 0, _ => none
  | fuel + 1, cs =>
    if (cs.drop lineWidth).isEmpty then some cs
    else
      match afterLineEnd? (cs.drop lineWidth) with
      | none => none
      | some rest => (joinLines? fuel rest).map (cs.take lineWidth ++ ·)

/-- The text from a line that starts with a marker. -/
def fromLine? (marker : List Char) : List Char → Option (List Char)
  | [] => none
  | c :: cs =>
    if c = '\x00' then none
    else if c = '\n' && (Text.afterFront? marker cs).isSome then some cs
    else fromLine? marker cs

/-- Reads a text that holds one block of a kind, with at most other lines before it. -/
def strictBlock? (label text : String) : Option (List UInt8) := do
  let start := "-----BEGIN ".toList
  let cs ← if (Text.afterFront? start text.toList).isSome then some text.toList
    else fromLine? start text.toList
  let cs ← Text.afterFront? (start ++ label.toList ++ "-----".toList) cs
  let cs ← afterLineEnd? cs
  let cs := (beforeLineEnd? cs).getD cs
  let cs ← beforeEnd? ("-----END ".toList ++ label.toList ++ "-----".toList) cs
  let cs ← beforeLineEnd? cs
  if cs.isEmpty then none
  else
    let cs ← joinLines? cs.length cs
    Base64.decode? cs

end ProvenanceTrail.Pem
