import ProvenanceTrail.Graph.Name
import ProvenanceTrail.Json.Printer
/-!
# Tokens

A trusted party issues a token for a bundle that it has seen. The token's data is signed over its
canonical JSON text.
-/

namespace ProvenanceTrail

/-- What a token says about the bundle and about the party that issued it. -/
structure AdditionalTokenData where
  bundle : String
  hashFunction : String
  trustedPartyUri : String
  trustedPartyCertificate : String
deriving DecidableEq, Repr

/-- The signed part of a token. Timestamps are integers of 64 bits. -/
structure TokenData where
  originatorId : String
  authorityId : String
  tokenTimestamp : Int
  documentCreationTimestamp : Int
  documentDigest : String
  additionalData : AdditionalTokenData
deriving DecidableEq, Repr

/-- A token with its signature. -/
structure Token where
  data : TokenData
  signature : String
deriving DecidableEq, Repr

namespace AdditionalTokenData

/-- The JSON form. -/
def toJson (d : AdditionalTokenData) : Json :=
  .object [("bundle", .string d.bundle), ("hashFunction", .string d.hashFunction),
    ("trustedPartyUri", .string d.trustedPartyUri),
    ("trustedPartyCertificate", .string d.trustedPartyCertificate)]

/-- The form of the data in a text. -/
def form : Form :=
  .record [Form.needed "bundle" .text, Form.needed "hashFunction" .text, Form.needed "trustedPartyUri" .text,
    Form.needed "trustedPartyCertificate" .text]

/-- Reads the JSON form. -/
def ofJson? (j : Json) : Option AdditionalTokenData := do
  match ← j.fields? ["bundle", "hashFunction", "trustedPartyUri", "trustedPartyCertificate"] with
  | [bundle, hashFunction, uri, certificate] =>
    let bundle ← Json.required? Json.string? bundle
    let hashFunction ← Json.required? Json.string? hashFunction
    let uri ← Json.required? Json.string? uri
    let certificate ← Json.required? Json.string? certificate
    pure ⟨bundle, hashFunction, uri, certificate⟩
  | _ => none

end AdditionalTokenData

namespace TokenData

/-- The JSON form. -/
def toJson (d : TokenData) : Json :=
  .object [("originatorId", .string d.originatorId), ("authorityId", .string d.authorityId),
    ("tokenTimestamp", Json.ofInt d.tokenTimestamp),
    ("documentCreationTimestamp", Json.ofInt d.documentCreationTimestamp),
    ("documentDigest", .string d.documentDigest), ("additionalData", d.additionalData.toJson)]

/-- The form of the data in a text. -/
def form : Form :=
  .record [Form.needed "originatorId" .text, Form.needed "authorityId" .text,
    Form.needed "tokenTimestamp" .anything,
    Form.needed "documentCreationTimestamp" .anything, Form.needed "documentDigest" .text,
    Form.needed "additionalData" AdditionalTokenData.form]

/-- Reads the JSON form. -/
def ofJson? (j : Json) : Option TokenData := do
  match ← j.fields? ["originatorId", "authorityId", "tokenTimestamp", "documentCreationTimestamp",
    "documentDigest", "additionalData"] with
  | [originatorId, authorityId, tokenTime, creationTime, digest, additional] =>
    let originatorId ← Json.required? Json.string? originatorId
    let authorityId ← Json.required? Json.string? authorityId
    let tokenTime ← Json.required? Json.integer64? tokenTime
    let creationTime ← Json.required? Json.integer64? creationTime
    let digest ← Json.required? Json.string? digest
    let additional ← Json.required? AdditionalTokenData.ofJson? additional
    pure ⟨originatorId, authorityId, tokenTime, creationTime, digest, additional⟩
  | _ => none

/-- The bytes that are signed. -/
def canonicalBytes (d : TokenData) : List UInt8 := d.toJson.canonical.toUTF8.toList

end TokenData

namespace Token

/-- The JSON form. -/
def toJson (t : Token) : Json :=
  .object [("data", t.data.toJson), ("signature", .string t.signature)]

/-- The form of a token in a text. -/
def form : Form := .record [Form.needed "data" TokenData.form, Form.needed "signature" .text]

/-- Reads the JSON form. -/
def ofJson? (j : Json) : Option Token := do
  match ← j.fields? ["data", "signature"] with
  | [data, signature] =>
    let data ← Json.required? TokenData.ofJson? data
    let signature ← Json.required? Json.string? signature
    pure ⟨data, signature⟩
  | _ => none

/-- The token that a text writes. -/
def ofText? : String → Option Token := Json.readText? form ofJson?

/-- The canonical bytes of the whole token. -/
def canonicalBytes (t : Token) : List UInt8 := t.toJson.canonical.toUTF8.toList

end Token

end ProvenanceTrail
