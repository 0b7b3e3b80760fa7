import ProvenanceTrail.Digest.Bytes
import ProvenanceTrail.Text.Hex
/-!
# Percent coding

A character that may not stand in a part of an address is written as the bytes of its UTF-8 form, each
as a percent sign and two hexadecimal digits. Control characters and characters beyond ASCII are always
written so; which others are depends on the part.
-/

namespace ProvenanceTrail.Percent

/-- A byte, coded. -/
def encodeByte (b : UInt8) : List Char :=
  ['%', Text.hexDigit 'A' (b.toNat / 16), Text.hexDigit 'A' (b.toNat % 16)]

/-- Characters that are coded in every part. -/
def isAlwaysCoded (c : Char) : Bool := c.toNat < 0x20 || 0x7F ≤ c.toNat

/-- A character of a part of an address. -/
def encodeChar (coded : List Char) (c : Char) : List Char :=
  if isAlwaysCoded c || coded.contains c then c.toString.toUTF8.toList.flatMap encodeByte else [c]

/-- A part of an address, in which some characters are coded. -/
def encode (coded cs : List Char) : List Char := cs.flatMap (encodeChar coded)

/-- The characters coded in a fragment. -/
def inFragment : List Char := [' ', '"', '<', '>', '\x60']

/-- The characters coded in a query. -/
def inQuery : List Char := [' ', '"', '#', '<', '>', '\x27']

/-- The characters coded in a path. -/
def inPath : List Char := inFragment ++ ['#', '?', '^', '\x7b', '\x7d']

/-- The characters coded in a segment that is added to a path. -/
def inSegment : List Char := inPath ++ ['/', '%', '\\']

/-- The characters coded in the name and password of a user. -/
def inUser : List Char := inPath ++ ['/', ':', ';', '=', '@', '[', '\\', ']', '|']

/-- The bytes of a text with coded bytes in it. A percent sign that codes nothing stands for itself. -/
def decode : List Char → List UInt8
  | [] => []
  | '%' :: a :: b :: rest =>
    match Text.hexValue? a, Text.hexValue? b with
    | some x, some y => UInt8.ofNat (16 * x + y) :: decode rest
    | _, _ => 0x25 :: decode (a :: b :: rest)
  | c :: rest => c.toString.toUTF8.toList ++ decode rest

end ProvenanceTrail.Percent
