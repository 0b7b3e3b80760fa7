import ProvenanceTrail.Number.DecimalText
import ProvenanceTrail.Time.Calendar
import ProvenanceTrail.Trust.Curve
import ProvenanceTrail.Trust.Der
/-!
# Certificates

A trusted party's public key comes in a certificate. The certificate must be well formed, but only its
key is used: who signed it, for whom and for how long it is valid does not matter.
-/

namespace ProvenanceTrail.Certificate

/-- Whether bytes are the contents of the identification of an algorithm: an object identifier and at
most one parameter. -/
def isAlgorithm (contents : List UInt8) : Bool :=
  match Der.expect? Der.objectId contents with
  | some (id, rest) =>
    Der.isObjectId id && (rest.isEmpty || (Der.elements? rest).any fun es => es.length == 1)
  | none => false

/-- Whether an element is an attribute of a name: an object identifier and a value. -/
def isNameAttribute (element : UInt8 × List UInt8) : Bool :=
  element.1 == Der.sequence &&
    match Der.elements? element.2 with
    | some [(tag, id), _] => tag == Der.objectId && Der.isObjectId id
    | _ => false

/-- Whether bytes are the contents of a name: a sequence of sets of attributes. -/
def isName (contents : List UInt8) : Bool :=
  (Der.elements? contents).any fun es => es.all fun e =>
    e.1 == Der.set && (Der.elements? e.2).any fun attributes => attributes.all isNameAttribute

/-- The number that two digits write, from a position. -/
def twoDigits (ds : List Char) (position : Nat) : Nat :=
  Number.ofDigits ((ds.drop position).take 2)

/-- Whether an element is a time, from 1970 on. -/
def isTime (element : UInt8 × List UInt8) : Bool :=
  let cs := element.2.map fun b => Char.ofNat b.toNat
  let yearDigits := if element.1 == Der.longTime then 4 else 2
  let ds := cs.take (yearDigits + 10)
  let short := Number.ofDigits (ds.take yearDigits)
  let year := if yearDigits = 4 then short else if short < 50 then 2000 + short else 1900 + short
  (element.1 == Der.longTime || element.1 == Der.shortTime) && cs.drop (yearDigits + 10) == ['Z'] &&
    ds.length == yearDigits + 10 && ds.all Char.isDigit && 1970 ≤ year &&
    Calendar.isDate year (twoDigits ds yearDigits) (twoDigits ds (yearDigits + 2)) &&
    twoDigits ds (yearDigits + 4) < 24 && twoDigits ds (yearDigits + 6) < 60 &&
    twoDigits ds (yearDigits + 8) < 60

/-- Whether bytes are the contents of a period: two times. -/
def isPeriod (contents : List UInt8) : Bool :=
  match Der.elements? contents with
  | some [start, finish] => isTime start && isTime finish
  | _ => false

/-- Whether an element is an extension: an object identifier, possibly a truth value, and bytes. -/
def isExtension (element : UInt8 × List UInt8) : Bool :=
  let isCritical (e : UInt8 × List UInt8) : Bool :=
    e.1 == Der.boolean && (e.2 == [0x00] || e.2 == [0xFF])
  element.1 == Der.sequence &&
    match Der.elements? element.2 with
    | some [id, value] => id.1 == Der.objectId && Der.isObjectId id.2 && value.1 == Der.octetString
    | some [id, critical, value] =>
      id.1 == Der.objectId && Der.isObjectId id.2 && isCritical critical &&
        value.1 == Der.octetString
    | _ => false

/-- Reads the bits of a public key from the contents of its element: an algorithm and the key. -/
def keyBits? (contents : List UInt8) : Option (List UInt8) := do
  let (algorithm, rest) ← Der.expect? Der.sequence contents
  let bits ← Der.only? Der.bitString rest
  if isAlgorithm algorithm then Der.bits? bits else none

/-- Whether the parts after the key are what a certificate may end with: two identifiers and a list of
extensions, all of them optional. -/
def isEnding (bytes : List UInt8) : Bool := Option.isSome do
  let (issuer, bytes) ← Der.maybe? (Der.primitive 1) bytes
  let (subject, bytes) ← Der.maybe? (Der.primitive 2) bytes
  let (extensions, bytes) ← Der.maybe? (Der.constructed 3) bytes
  let wellFormed (contents : List UInt8) : Bool :=
    ((Der.only? Der.sequence contents).bind Der.elements?).any fun es => es.all isExtension
  if bytes.isEmpty && issuer.all (fun c => (Der.bits? c).isSome) &&
      subject.all (fun c => (Der.bits? c).isSome) && extensions.all wellFormed then
    some ()
  else none

/-- Reads the bits of the public key from the signed part of a certificate. -/
def signedPart? (contents : List UInt8) : Option (List UInt8) := do
  let (version, rest) ← Der.maybe? (Der.constructed 0) contents
  let (serial, rest) ← Der.expect? Der.integer rest
  let (algorithm, rest) ← Der.expect? Der.sequence rest
  let (issuer, rest) ← Der.expect? Der.sequence rest
  let (period, rest) ← Der.expect? Der.sequence rest
  let (subject, rest) ← Der.expect? Der.sequence rest
  let (key, rest) ← Der.expect? Der.sequence rest
  let isVersion (c : List UInt8) : Bool :=
    ((Der.only? Der.integer c).bind Der.natural?).any (· ≤ 2)
  if version.all isVersion && Der.isInteger serial && serial.length ≤ 21 && isAlgorithm algorithm &&
      isName issuer && isPeriod period && isName subject && isEnding rest then
    keyBits? key
  else none

/-- The public key of a certificate. -/
def key? (bytes : List UInt8) : Option Curve.Point := do
  let contents ← Der.only? Der.sequence bytes
  let (signed, rest) ← Der.expect? Der.sequence contents
  let (algorithm, rest) ← Der.expect? Der.sequence rest
  let signature ← Der.only? Der.bitString rest
  if isAlgorithm algorithm && (Der.bits? signature).isSome then
    Curve.Point.ofBytes? (← signedPart? signed)
  else none

end ProvenanceTrail.Certificate
