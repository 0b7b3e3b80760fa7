import ProvenanceTrail.Digest.Sha256
import ProvenanceTrail.Trust.Curve
import ProvenanceTrail.Trust.Der
/-!
# Signatures

A signature is a pair of numbers from 1 to below the order of the group. It is written as a sequence
of two integers, and read from that or from the two numbers of 32 bytes each. The number that a signer
needs afresh for every message is derived from the key and the message.
-/

namespace ProvenanceTrail

open Curve

/-- A signature. -/
structure Signature where
  r : Nat
  s : Nat
deriving DecidableEq, Repr

namespace Signature

/-- Whether a number can be part of a signature or a private key. -/
def isScalar (n : Nat) : Bool := 0 < n && n < groupOrder

/-- The signature of two numbers that are in range. -/
def ofParts? (r s : Nat) : Option Signature :=
  if isScalar r && isScalar s then some ⟨r, s⟩ else none

/-- Reads the sequence of two integers. -/
def ofDer? (bytes : List UInt8) : Option Signature := do
  let body ← Der.only? Der.sequence bytes
  let (r, body) ← Der.expect? Der.integer body
  let s ← Der.only? Der.integer body
  ofParts? (← Der.natural? r) (← Der.natural? s)

/-- Reads a signature: 64 bytes are two numbers of 32, all else is a sequence of two integers. -/
def ofBytes? (bytes : List UInt8) : Option Signature :=
  if bytes.length = 64 then
    ofParts? (Digest.toNat (bytes.take 32)) (Digest.toNat (bytes.drop 32))
  else ofDer? bytes

/-- Writes the sequence of two integers. -/
def toDer (sig : Signature) : List UInt8 :=
  Der.encode Der.sequence (Der.encodeNatural sig.r ++ Der.encodeNatural sig.s)

/-- Whether a signature is one of a message under a public key. -/
def verifies (sig : Signature) (key : Point) (message : List UInt8) : Bool :=
  let z := Digest.toNat (Digest.Sha256.digest message)
  let w := inverse groupOrder sig.s
  let sum := (Point.generator.times (z * w % groupOrder)).add (key.times (sig.r * w % groupOrder))
  match sum.affine? with
  | some (x, _) => x % groupOrder == sig.r
  | none => false

/-- A generator of numbers: a key and a value, renewed from one another by keyed digests. -/
structure NonceState where
  key : List UInt8
  value : List UInt8

namespace NonceState

/-- Renews key and value with a separating byte and more bytes. -/
def renew (g : NonceState) (separator : UInt8) (bytes : List UInt8) : NonceState :=
  let key := Digest.Sha256.keyed g.key (g.value ++ separator :: bytes)
  ⟨key, Digest.Sha256.keyed key g.value⟩

/-- The state for a private key and the digest of a message. -/
def start (secret digest : Nat) : NonceState :=
  let seed := Digest.ofNat 32 secret ++ Digest.ofNat 32 digest
  ((⟨List.replicate 32 0, List.replicate 32 1⟩ : NonceState).renew 0 seed).renew 1 seed

/-- The first number in range among the next `fuel` ones; one is out of range once in 2^32 times. -/
def next? (g : NonceState) : Nat → Option Nat
  | 0 => none
  | fuel + 1 =>
    let value := Digest.Sha256.keyed g.key g.value
    let n := Digest.toNat value
    if isScalar n then some n
    else next? ((⟨g.key, value⟩ : NonceState).renew 0 []) fuel

end NonceState

/-- Signs a message with a private key. -/
def sign? (secret : Nat) (message : List UInt8) : Option Signature := do
  let z := Digest.toNat (Digest.Sha256.digest message) % groupOrder
  let k ← (NonceState.start secret z).next? 64
  let (x, _) ← (Point.generator.times k).affine?
  let r := x % groupOrder
  ofParts? r (inverse groupOrder k * (z + r * secret) % groupOrder)

end Signature

end ProvenanceTrail
