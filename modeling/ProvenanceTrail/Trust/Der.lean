import ProvenanceTrail.Digest.Bytes
/-!
# Distinguished encoding

Certificates, keys and signatures are nested elements: a tag, the length of the contents, and the
contents. A length is written in the fewest bytes, and a number has no superfluous leading byte, so
that a value has one encoding only.
-/

namespace ProvenanceTrail.Der

/-- The tag of a truth value. -/
def boolean : UInt8 := 0x01

/-- The tag of an integer. -/
def integer : UInt8 := 0x02

/-- The tag of a string of bits. -/
def bitString : UInt8 := 0x03

/-- The tag of a string of bytes. -/
def octetString : UInt8 := 0x04

/-- The tag of an object identifier. -/
def objectId : UInt8 := 0x06

/-- The tag of a time with a year of two digits. -/
def shortTime : UInt8 := 0x17

/-- The tag of a time with a year of four digits. -/
def longTime : UInt8 := 0x18

/-- The tag of a sequence. -/
def sequence : UInt8 := 0x30

/-- The tag of a set. -/
def set : UInt8 := 0x31

/-- The tag of a primitive element whose meaning depends on where it stands. -/
def primitive (number : UInt8) : UInt8 := 0x80 + number

/-- The tag of a constructed element whose meaning depends on where it stands. -/
def constructed (number : UInt8) : UInt8 := 0xA0 + number

/-- The universal tags that are known. -/
def universalTags : List UInt8 :=
  [0x01, 0x02, 0x03, 0x04, 0x05, 0x06, 0x09, 0x0A, 0x0C, 0x12, 0x13, 0x14, 0x15, 0x16, 0x17, 0x18,
    0x1A, 0x1B, 0x1E, 0x30, 0x31]

/-- Whether a byte is a tag. Tags of more than one byte are not supported. -/
def isTag (tag : UInt8) : Bool :=
  universalTags.contains tag || (0x40 ≤ tag && tag &&& 0x1F != 0x1F)

/-- The largest length of contents. -/
def maxLength : Nat := 0xFFFFFFF

/-- Reads a length: one byte below 128, or the number of the bytes that follow. -/
def length? : List UInt8 → Option (Nat × List UInt8)
  | [] => none
  | b :: rest =>
    if b < 0x80 then some (b.toNat, rest)
    else
      let count := b.toNat - 0x80
      let digits := rest.take count
      let n := Digest.toNat digits
      if 1 ≤ count ∧ count ≤ 4 ∧ digits.length = count ∧ 0x80 ≤ n ∧ n ≤ maxLength ∧
          Digest.shortest n = digits then
        some (n, rest.drop count)
      else none

/-- Reads an element: its tag, its contents and what follows. -/
def element? : List UInt8 → Option (UInt8 × List UInt8 × List UInt8)
  | [] => none
  | tag :: rest =>
    if isTag tag then
      match length? rest with
      | some (n, rest) =>
        if n ≤ rest.length then some (tag, rest.take n, rest.drop n) else none
      | none => none
    else none

/-- Reads an element of a tag. -/
def expect? (tag : UInt8) (bytes : List UInt8) : Option (List UInt8 × List UInt8) :=
  match element? bytes with
  | some (t, contents, rest) => if t = tag then some (contents, rest) else none
  | none => none

/-- Reads an element if it has a tag. -/
def maybe? (tag : UInt8) (bytes : List UInt8) : Option (Option (List UInt8) × List UInt8) :=
  if bytes.head? = some tag then (expect? tag bytes).map fun r => (some r.1, r.2)
  else some (none, bytes)

/-- The contents of an element of a tag with nothing after it. -/
def only? (tag : UInt8) (bytes : List UInt8) : Option (List UInt8) :=
  match expect? tag bytes with
  | some (contents, []) => some contents
  | _ => none

/-- The elements that follow one another, of which there are at most `fuel`. -/
def elementsUpTo : Nat → List UInt8 → Option (List (UInt8 × List UInt8))
  | _, [] => some []
  | 0, _ => none
  | fuel + 1, bytes =>
    match element? bytes with
    | none => none
    | some (tag, contents, rest) => (elementsUpTo fuel rest).map ((tag, contents) :: ·)

/-- The elements that follow one another up to the end. An element takes at least two bytes. -/
def elements? (bytes : List UInt8) : Option (List (UInt8 × List UInt8)) :=
  elementsUpTo bytes.length bytes

/-- Whether bytes are the contents of an integer: no first byte that only repeats the sign. -/
def isInteger : List UInt8 → Bool
  | [] => false
  | [_] => true
  | a :: b :: _ => !((a == 0 && b < 0x80) || (a == 0xFF && 0x80 ≤ b))

/-- The number in the contents of an integer that is not negative. -/
def natural? (contents : List UInt8) : Option Nat :=
  if isInteger contents && contents.headD 0 < 0x80 then some (Digest.toNat contents) else none

/-- The bytes in the contents of a string of bits. -/
def bits? : List UInt8 → Option (List UInt8)
  | [] => none
  | unused :: bytes =>
    if unused ≤ 7 && (unused == 0 || !bytes.isEmpty) then some bytes else none

/-- Whether bytes are the contents of an object identifier: three bytes at least, numbers of seven bits
a byte, and the last byte ends a number. -/
def isObjectId (contents : List UInt8) : Bool :=
  3 ≤ contents.length && contents.length ≤ 39 && contents.getLast?.any (· < 0x80)

/-- Writes a length. -/
def encodeLength (n : Nat) : List UInt8 :=
  if n < 0x80 then [UInt8.ofNat n]
  else
    let digits := Digest.shortest n
    UInt8.ofNat (0x80 + digits.length) :: digits

/-- Writes an element. -/
def encode (tag : UInt8) (contents : List UInt8) : List UInt8 :=
  tag :: (encodeLength contents.length ++ contents)

/-- Writes a natural number as an integer; a zero byte goes in front when the number would else read
as a negative one. -/
def encodeNatural (n : Nat) : List UInt8 :=
  let digits := Digest.shortest n
  encode integer (if 0x80 ≤ digits.headD 0 then 0 :: digits else digits)

end ProvenanceTrail.Der
