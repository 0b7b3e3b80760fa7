import ProvenanceTrail.Trust.Certificate
import ProvenanceTrail.Trust.Pem
import ProvenanceTrail.Trust.Signature
/-!
# Private keys

A private key is a number, wrapped twice: the inner element holds the number and possibly the curve and
the public key, the outer one names the algorithm. A public key that comes along must be the one that
belongs to the number.
-/

namespace ProvenanceTrail.PrivateKey

open Curve

/-- The object identifier of keys on curves. -/
def keyOnCurve : List UInt8 := [0x2A, 0x86, 0x48, 0xCE, 0x3D, 0x02, 0x01]

/-- The object identifier of the curve P-256. -/
def curveId : List UInt8 := [0x2A, 0x86, 0x48, 0xCE, 0x3D, 0x03, 0x01, 0x07]

/-- The identification of keys on P-256. -/
def algorithm : List UInt8 :=
  Der.encode Der.objectId keyOnCurve ++ Der.encode Der.objectId curveId

/-- Whether the bytes of a public key are the point that belongs to a number. -/
def matchesPublic (secret : Nat) (bytes : List UInt8) : Bool :=
  match Point.ofBytes? bytes with
  | some p => (Point.generator.times secret).affine? == some (p.x, p.y)
  | none => false

/-- Whether a part that may be missing is a string of bits, wrapped in a tag, that is the public key
of a number. -/
def isPublicPart (secret : Nat) (part : Option (List UInt8)) : Bool :=
  part.all fun c => ((Der.only? Der.bitString c).bind Der.bits?).any (matchesPublic secret)

/-- Reads the inner element. The number may come with fewer than 32 bytes, but not with fewer than
24. -/
def inner? (bytes : List UInt8) : Option Nat := do
  let contents ← Der.only? Der.sequence bytes
  let (version, rest) ← Der.expect? Der.integer contents
  let (secret, rest) ← Der.expect? Der.octetString rest
  let (curve, rest) ← Der.maybe? (Der.constructed 0) rest
  let (key, rest) ← Der.maybe? (Der.constructed 1) rest
  let n := Digest.toNat secret
  if version == [1] && 24 ≤ secret.length && secret.length ≤ 32 && Signature.isScalar n &&
      curve.all (fun c => Der.only? Der.objectId c == some curveId) && isPublicPart n key &&
      rest.isEmpty then
    some n
  else none

/-- Whether the parts after the inner element are in order: attributes, and a public key exactly in the
second version. -/
def isEnding (version : List UInt8) (bytes : List UInt8) : Bool :=
  match Der.elements? bytes with
  | none => false
  | some es =>
    es.all (fun e => 0x80 ≤ e.1 && e.1 < 0xC0) &&
      (version == [1]) == es.any fun e => e.1 == Der.primitive 1

/-- Reads the outer element. -/
def outer? (bytes : List UInt8) : Option Nat := do
  let contents ← Der.only? Der.sequence bytes
  let (version, rest) ← Der.expect? Der.integer contents
  let (kind, rest) ← Der.expect? Der.sequence rest
  let (key, rest) ← Der.expect? Der.octetString rest
  if (version == [0] || version == [1]) && kind == algorithm && isEnding version rest then inner? key
  else none

/-- Reads a private key from its armour. -/
def ofText? (text : String) : Option Nat := do
  outer? (← Pem.strictBlock? "PRIVATE KEY" text)

end ProvenanceTrail.PrivateKey
