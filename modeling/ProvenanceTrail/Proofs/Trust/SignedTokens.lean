import ProvenanceTrail.Proofs.Text.Trimming
import ProvenanceTrail.Proofs.Trust.Armour
import ProvenanceTrail.Proofs.Trust.CertifiedKeys
import ProvenanceTrail.Proofs.Trust.IssuedSignatures

/-!
# Signed tokens

A token comes with a signature, as base64 text, and with a certificate, in armour. `Token.IsSigned` says what it
is for a token to be signed, without any of the verifier's readers: the signature text is what is written for a
pair of numbers, the first block of the armour is what is written for a certificate that carries the point of a
key, and the pair solves the equation of signatures for this point and the canonical bytes of the data. The
verifier decides this (`Token.verifySignature_eq_ok_true_iff`).
-/

namespace ProvenanceTrail

open Der
open Digest (IsWord)

/-! ## Signatures as bytes -/

namespace Signature

variable {sig : Signature} {bytes : List UInt8}

/-- A pair of numbers that may be a signature. -/
structure IsPair (sig : Signature) : Prop where
  r : 0 < sig.r ∧ sig.r < Curve.groupOrder
  s : 0 < sig.s ∧ sig.s < Curve.groupOrder

/-- The pairs are those in range. -/
theorem isPair_iff_inRange : sig.IsPair ↔ sig.InRange := by
  simp only [InRange, isScalar, Bool.and_eq_true, decide_eq_true_eq]
  exact ⟨fun h => ⟨h.r, h.s⟩, fun h => ⟨h.1, h.2⟩⟩

/-- Bytes write a signature: as two numbers of 32 bytes, or as a sequence of two integers. A sequence of
64 bytes would be taken for two numbers. -/
inductive Writes (sig : Signature) : List UInt8 → Prop
  | words {xs ys : List UInt8} : IsWord xs sig.r → IsWord ys sig.s → Writes sig (xs ++ ys)
  | sequence : sig.toDer.length ≠ 64 → Writes sig sig.toDer

/-- A sequence of two integers is read exactly if it is the one that is written. -/
theorem ofDer?_eq_some_iff : ofDer? bytes = some sig ↔ sig.InRange ∧ bytes = sig.toDer := by
  refine ⟨fun h => ?_, fun ⟨hrange, hbytes⟩ => hbytes ▸ hrange.ofDer?_toDer⟩
  simp only [ofDer?, Option.bind_eq_bind, Option.bind_eq_some_iff, Prod.exists, only?_eq_some_iff,
    expect?_eq_some_iff, natural?_eq_some_iff, ofParts?_eq_some_iff] at h
  obtain ⟨body, ⟨-, rfl⟩, r, rest, ⟨-, rfl⟩, s, ⟨-, rfl⟩, m, rfl, n, rfl, rfl, rfl, hrange⟩ := h
  exact ⟨hrange, rfl⟩

/-- A signature is read exactly from the bytes that write it. -/
theorem ofBytes?_eq_some_iff : ofBytes? bytes = some sig ↔ sig.IsPair ∧ sig.Writes bytes := by
  rw [isPair_iff_inRange, ofBytes?]
  constructor
  · intro h
    split_ifs at h with hlength
    · obtain ⟨hr, hs, hrange⟩ := ofParts?_eq_some_iff.1 h
      obtain ⟨xs, ys, heq, hx, hy⟩ := Digest.exists_words hlength
      exact ⟨hrange, heq ▸ .words (hr ▸ hx) (hs ▸ hy)⟩
    · obtain ⟨hrange, rfl⟩ := ofDer?_eq_some_iff.1 h
      exact ⟨hrange, .sequence hlength⟩
  · rintro ⟨hrange, ⟨hx, hy⟩ | hlength⟩
    · have hxlength := hx.length
      have hylength := hy.length
      rw [if_pos (by rw [List.length_append]; omega), List.take_left' hxlength, List.drop_left' hxlength]
      exact ofParts?_eq_some_iff.2 ⟨hx.value, hy.value, hrange⟩
    · rw [if_neg hlength]
      exact hrange.ofDer?_toDer

end Signature

/-! ## Tokens -/

namespace Token

variable {t : Token}

/-- The text of the signature, less the blanks around it, is base64 for the bytes of a signature. -/
def HasSignature (t : Token) (sig : Signature) : Prop :=
  ∃ text bytes, Text.IsTrimmed t.signature text ∧ text.toList = Base64.encode bytes ∧ sig.IsPair ∧
    sig.Writes bytes

/-- The signature of a token is read just if its text has it. -/
theorem signature?_eq_some_iff {sig : Signature} : t.signature? = some sig ↔ t.HasSignature sig := by
  simp only [signature?, Option.bind_eq_some_iff, Base64.decode?_eq_some_iff, Signature.ofBytes?_eq_some_iff,
    HasSignature]
  constructor
  · rintro ⟨bytes, htext, hsig⟩
    exact ⟨_, bytes, Text.isTrimmed_trim _, htext, hsig⟩
  · rintro ⟨text, bytes, htrimmed, htext, hsig⟩
    exact ⟨bytes, htrimmed.trim_eq ▸ htext, hsig⟩

/-- The first block of the armour is a certificate that carries the point with these coordinates. -/
def HasKey (t : Token) (x y : Nat) : Prop :=
  ∃ contents bits,
    Pem.IsFirstBlock t.data.additionalData.trustedPartyCertificate.toList "CERTIFICATE".toList contents ∧
    Certificate.Carries contents bits ∧ Curve.WritesPoint x y bits

/-- The key of a token is read just if its certificate has it and it is a point of the curve. -/
theorem certifiedKey_eq_ok_iff {p : Curve.Point} : t.certifiedKey = .ok p ↔
    ∃ x y, Curve.OnCurve x y ∧ t.HasKey x y ∧ p = Curve.Point.ofAffine x y := by
  have hblock : t.certifiedKey = .ok p ↔ ∃ block,
      Pem.firstBlock? t.data.additionalData.trustedPartyCertificate = some block ∧
        block.label = "CERTIFICATE" ∧ Certificate.key? block.contents = some p := by
    rw [certifiedKey]
    cases Pem.firstBlock? t.data.additionalData.trustedPartyCertificate with
    | none => simp
    | some block =>
      by_cases hlabel : block.label = "CERTIFICATE"
      · cases hkey : Certificate.key? block.contents <;> simp [hlabel, hkey]
      · simp [hlabel]
  simp only [hblock, Pem.firstBlock?_eq_some_iff, Certificate.key?_eq_some_iff, HasKey]
  constructor
  · rintro ⟨⟨label, contents⟩, hfirst, rfl, bits, x, y, hcarries, hcurve, hwrites, rfl⟩
    exact ⟨x, y, hcurve, ⟨contents, bits, hfirst, hcarries, hwrites⟩, rfl⟩
  · rintro ⟨x, y, hcurve, ⟨contents, bits, hfirst, hcarries, hwrites⟩, rfl⟩
    exact ⟨⟨"CERTIFICATE", contents⟩, hfirst, rfl, bits, x, y, hcarries, hcurve, hwrites, rfl⟩

/-- The key is read from the data of a token, whatever its signature. -/
theorem certifiedKey_congr {u : Token} (h : t.data = u.data) : t.certifiedKey = u.certifiedKey := by
  simp only [certifiedKey, h]

/-- A token is signed: it has a signature and a key, and the signature is one of the canonical bytes of its
data under this key. -/
def IsSigned (t : Token) : Prop :=
  ∃ sig x y, ∃ hcurve : Curve.OnCurve x y, t.HasSignature sig ∧ t.HasKey x y ∧
    sig.IsOf hcurve.point t.data.canonicalBytes

/-- The verifier decides whether a token is signed. -/
theorem verifySignature_eq_ok_true_iff : t.verifySignature = .ok true ↔ t.IsSigned := by
  have hread : t.verifySignature = .ok true ↔ ∃ sig p, t.signature? = some sig ∧ t.certifiedKey = .ok p ∧
      sig.verifies p t.data.canonicalBytes = true := by
    rw [verifySignature]
    cases t.signature? with
    | none => simp
    | some sig => cases t.certifiedKey <;> simp [Except.map]
  simp only [hread, signature?_eq_some_iff, certifiedKey_eq_ok_iff, IsSigned]
  constructor
  · rintro ⟨sig, _, hsig, ⟨x, y, hcurve, hkey, rfl⟩, hverifies⟩
    exact ⟨sig, x, y, hcurve, hsig, hkey, (Signature.verifies_iff hcurve.stands _).1 hverifies⟩
  · rintro ⟨sig, x, y, hcurve, hsig, hkey, hof⟩
    exact ⟨sig, _, hsig, ⟨x, y, hcurve, hkey, rfl⟩, (Signature.verifies_iff hcurve.stands _).2 hof⟩

end Token

end ProvenanceTrail
