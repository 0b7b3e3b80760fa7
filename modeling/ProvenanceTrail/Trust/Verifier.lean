import ProvenanceTrail.Digest.Sha256
import ProvenanceTrail.Trust.Certificate
import ProvenanceTrail.Trust.Digests
import ProvenanceTrail.Trust.Pem
import ProvenanceTrail.Trust.PrivateKey
import ProvenanceTrail.Trust.Registry
import ProvenanceTrail.Trust.Signature
/-!
# Integrity of bundles

A bundle is trusted when its token names it, carries the digest that the connector pins, is signed
under the certificate it carries, and is listed by the trusted party it names. Material that cannot be
decoded and a registry that cannot be reached are errors, not verdicts.

Verdicts on signatures may be remembered, under the SHA-256 digest of the token's canonical text. The
registry is always asked.
-/

namespace ProvenanceTrail

/-- Why integrity could not be decided. -/
inductive IntegrityError where
  | malformedSignature
  /-- the certificate cannot be used; a block of another kind is named -/
  | invalidCertificate (otherKind : Option String)
  | registry (failure : RemoteFailure)
deriving DecidableEq, Repr

namespace IntegrityError

/-- The text of an error. -/
def message : IntegrityError → String
  | .malformedSignature => "Malformed token signature"
  | .invalidCertificate none => "Invalid trusted-party certificate"
  | .invalidCertificate (some kind) =>
    s!"Invalid trusted-party certificate: expected CERTIFICATE, found {kind}"
  | .registry failure => s!"Token registry unavailable: {failure.message}"

end IntegrityError

/-- Why a bundle is not trusted. -/
inductive IntegrityFailure where
  | missingToken
  | bundleMismatch
  | digestMismatch
  | badSignature
  | notRegistered
deriving DecidableEq, Repr

namespace IntegrityFailure

/-- The name of a failure. -/
def name : IntegrityFailure → String
  | .missingToken => "MissingToken"
  | .bundleMismatch => "BundleMismatch"
  | .digestMismatch => "DigestMismatch"
  | .badSignature => "BadSignature"
  | .notRegistered => "NotRegistered"

end IntegrityFailure

/-- The verdict on a bundle, and whether the verdict on the signature was remembered. -/
structure IntegrityResult where
  failure : Option IntegrityFailure
  cacheHit : Bool
deriving DecidableEq, Repr

namespace IntegrityResult

/-- Whether the bundle is trusted. -/
def isValid (r : IntegrityResult) : Bool := r.failure.isNone

end IntegrityResult

namespace Token

/-- Reads the signature of a token. -/
def signature? (t : Token) : Option Signature :=
  (Base64.decode? (Text.trim t.signature).toList).bind Signature.ofBytes?

/-- The public key of the certificate that a token carries. -/
def certifiedKey (t : Token) : Except IntegrityError Curve.Point :=
  match Pem.firstBlock? t.data.additionalData.trustedPartyCertificate with
  | none => .error (.invalidCertificate none)
  | some block =>
    if block.label ≠ "CERTIFICATE" then .error (.invalidCertificate (some block.label))
    else
      match Certificate.key? block.contents with
      | none => .error (.invalidCertificate none)
      | some key => .ok key

/-- Whether a token is signed under the certificate that it carries. The signature is decoded before
the certificate. -/
def verifySignature (t : Token) : Except IntegrityError Bool :=
  match t.signature? with
  | none => .error .malformedSignature
  | some signature => t.certifiedKey.map fun key => signature.verifies key t.data.canonicalBytes

/-- The key under which the verdict on a token is remembered. -/
def verdictKey (t : Token) : List UInt8 := Digest.Sha256.digest t.canonicalBytes

end Token

/-- Remembered verdicts, latest first. -/
structure VerdictCache where
  capacity : Nat
  entries : List (List UInt8 × Bool)
deriving DecidableEq, Repr

namespace VerdictCache

/-- The number of verdicts that are remembered when nothing else is said. -/
def defaultCapacity : Nat := 10000

/-- A cache without verdicts; it has room for one at least. -/
def empty (capacity : Nat) : VerdictCache := ⟨max capacity 1, []⟩

/-- How many verdicts are remembered. -/
def size (c : VerdictCache) : Nat := c.entries.length

/-- The verdict under a key. Looking it up does not move it. -/
def find? (c : VerdictCache) (key : List UInt8) : Option Bool :=
  (c.entries.find? fun e => e.1 == key).map (·.2)

/-- Remembers a verdict; the one that was remembered first makes room. -/
def insert (c : VerdictCache) (key : List UInt8) (valid : Bool) : VerdictCache :=
  { c with entries := ((key, valid) :: c.entries.filter fun e => e.1 != key).take c.capacity }

/-- Forgets all verdicts. -/
def clear (c : VerdictCache) : VerdictCache := { c with entries := [] }

end VerdictCache

/-- A verifier: the registry that it asks, and the verdicts that it remembers, if it does. -/
structure Verifier where
  registry : TokenRegistry
  cache : Option VerdictCache

namespace Verifier

/-- The verdict on the signature of a token, whether it was remembered, and the verifier after that. -/
def signatureVerdict (v : Verifier) (t : Token) : Except IntegrityError (Bool × Bool) × Verifier :=
  match v.cache with
  | none => (t.verifySignature.map fun valid => (valid, false), v)
  | some cache =>
    match cache.find? t.verdictKey with
    | some valid => (.ok (valid, true), v)
    | none =>
      match t.verifySignature with
      | .error e => (.error e, v)
      | .ok valid =>
        (.ok (valid, false), { v with cache := some (cache.insert t.verdictKey valid) })

/-- Asks the registry whether a token is listed. -/
def isListed (v : Verifier) (t : Token) : Except IntegrityError Bool :=
  let trustedParty := t.data.additionalData.trustedPartyUri
  match v.registry.tokensOf trustedParty t.data.originatorId with
  | .error e => .error (.registry (e.toRemote trustedParty))
  | .ok tokens => .ok (tokens.contains t)

/-- Whether the digest that a token carries is the one that is pinned, if one is. -/
def agreesWithPin (t : Token) (pinned : Option String) : Bool :=
  pinned.all fun expected => Digest.agree expected t.data.documentDigest

/-- Decides on a bundle by its token and the digest that is pinned for it. -/
def verify (v : Verifier) (bundle : QualifiedName) (token : Option Token) (pinned : Option String) :
    Except IntegrityError IntegrityResult × Verifier :=
  match token with
  | none => (.ok ⟨some .missingToken, false⟩, v)
  | some t =>
    if t.data.additionalData.bundle ≠ bundle.uri then (.ok ⟨some .bundleMismatch, false⟩, v)
    else if !agreesWithPin t pinned then (.ok ⟨some .digestMismatch, false⟩, v)
    else
      match v.signatureVerdict t with
      | (.error e, v) => (.error e, v)
      | (.ok (false, hit), v) => (.ok ⟨some .badSignature, hit⟩, v)
      | (.ok (true, hit), v) =>
        match v.isListed t with
        | .error e => (.error e, v)
        | .ok listed => (.ok ⟨if listed then none else some .notRegistered, hit⟩, v)

/-- Forgets the remembered verdicts. -/
def clearCache (v : Verifier) : Verifier := { v with cache := v.cache.map VerdictCache.clear }

end Verifier

/-- Signs the data of a token with a private key in its armour. -/
def TokenData.sign? (data : TokenData) (keyText : String) : Option Token := do
  let secret ← PrivateKey.ofText? keyText
  let signature ← Signature.sign? secret data.canonicalBytes
  pure ⟨data, String.ofList (Base64.encode signature.toDer)⟩

end ProvenanceTrail
