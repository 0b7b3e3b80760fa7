import ProvenanceTrail.Proofs.Trust.Encoding
import ProvenanceTrail.Trust.Verifier

/-!
# Issued signatures

A token is issued with its signature as a sequence of two integers, in base64, and a reader of tokens takes
64 bytes for two numbers of 32. The sequence has 64 bytes when the contents of the integers have 58
together, which few pairs have but which some do. A sequence of any other length gives back the pair
(`ofDer?_toDer`). One of 64 bytes does not (`ofBytes?_toDer_ne`): the first number that is read begins with
the tag of the sequence, which is too large for a first integer of at most 31 bytes, and when the first
integer has more, the second number begins within it and is too large for the second one.
-/

namespace ProvenanceTrail

open Der

namespace Signature

/-- Both numbers are from 1 to below the order of the group. -/
def InRange (sig : Signature) : Prop := isScalar sig.r = true ∧ isScalar sig.s = true

instance (sig : Signature) : Decidable sig.InRange := inferInstanceAs (Decidable (_ ∧ _))

variable {sig : Signature}

/-- Two numbers make a signature just if both are in range. -/
theorem ofParts?_eq_some_iff {r s : Nat} :
    ofParts? r s = some sig ↔ r = sig.r ∧ s = sig.s ∧ sig.InRange := by
  obtain ⟨r', s'⟩ := sig
  simp only [ofParts?, InRange, Option.ite_none_right_eq_some, Option.some.injEq, mk.injEq,
    Bool.and_eq_true]
  constructor
  · rintro ⟨hscalar, rfl, rfl⟩
    exact ⟨rfl, rfl, hscalar⟩
  · rintro ⟨rfl, rfl, hscalar⟩
    exact ⟨hscalar, rfl, rfl⟩

/-- A number in range takes at most 33 bytes. -/
theorem naturalSize_le_of_isScalar {n : Nat} (h : isScalar n = true) : naturalSize n ≤ 33 := by
  obtain ⟨hpos, hlt⟩ : 0 < n ∧ n < Curve.groupOrder := by simpa [isScalar] using h
  have hlog : n.log2 < 256 := (Nat.log2_lt hpos.ne').2 (hlt.trans (by decide))
  rw [naturalSize]
  omega

/-- The header of a number in the range of signatures states its length in one byte. -/
theorem encodeNatural_of_isScalar {n : Nat} (h : isScalar n = true) :
    encodeNatural n = [integer, UInt8.ofNat (naturalSize n)] ++ naturalContents n := by
  have hsize := naturalSize_le_of_isScalar h
  rw [encodeNatural_eq_encode, encode, length_naturalContents, encodeLength, if_pos (by omega)]
  rfl

/-- A number is written with two bytes before its own. -/
theorem length_encodeNatural {n : Nat} (h : isScalar n = true) :
    (encodeNatural n).length = naturalSize n + 2 := by
  rw [encodeNatural_of_isScalar h, List.length_append, length_naturalContents, Nat.add_comm]
  rfl

/-- A written signature: its header, and the two integers. -/
theorem InRange.toDer_eq (h : sig.InRange) :
    sig.toDer = [sequence, UInt8.ofNat (naturalSize sig.r + naturalSize sig.s + 4)] ++
      (encodeNatural sig.r ++ encodeNatural sig.s) := by
  have hr := naturalSize_le_of_isScalar h.1
  have hs := naturalSize_le_of_isScalar h.2
  have hlength : (encodeNatural sig.r ++ encodeNatural sig.s).length =
      naturalSize sig.r + naturalSize sig.s + 4 := by
    rw [List.length_append, length_encodeNatural h.1, length_encodeNatural h.2]
    omega
  rw [toDer, encode, hlength, encodeLength, if_pos (by omega)]
  rfl

/-- A signature takes the bytes of its numbers and six more. -/
theorem InRange.length_toDer (h : sig.InRange) :
    sig.toDer.length = naturalSize sig.r + naturalSize sig.s + 6 := by
  rw [h.toDer_eq, List.length_append, List.length_append, length_encodeNatural h.1,
    length_encodeNatural h.2, List.length_cons, List.length_singleton]
  omega

/-- As a sequence of two integers, what was written is read back. -/
theorem InRange.ofDer?_toDer (h : sig.InRange) : ofDer? sig.toDer = some sig := by
  have hr := naturalSize_le_of_isScalar h.1
  have hs := naturalSize_le_of_isScalar h.2
  have hcontents (n : Nat) (hn : naturalSize n ≤ 33) : (naturalContents n).length ≤ maxLength := by
    rw [length_naturalContents]
    exact hn.trans (by decide)
  have hbody : (encodeNatural sig.r ++ encodeNatural sig.s).length ≤ maxLength := by
    rw [List.length_append, length_encodeNatural h.1, length_encodeNatural h.2, maxLength]
    omega
  have hwhole : only? sequence sig.toDer = some (encodeNatural sig.r ++ encodeNatural sig.s) :=
    only?_encode (by decide) hbody
  have hfirst : expect? integer (encodeNatural sig.r ++ encodeNatural sig.s) =
      some (naturalContents sig.r, encodeNatural sig.s) :=
    expect?_encode (by decide) (hcontents _ hr) _
  have hsecond : only? integer (encodeNatural sig.s) = some (naturalContents sig.s) :=
    only?_encode (by decide) (hcontents _ hs)
  simp only [ofDer?, hwhole, hfirst, hsecond, natural?_naturalContents, Option.bind_eq_bind,
    Option.bind_some]
  exact ofParts?_eq_some_iff.2 ⟨rfl, rfl, h⟩

/-- What the first 32 bytes of a sequence write is larger than a first integer of at most 31 bytes. -/
theorem r_lt_toNat_take (hlength : sig.toDer.length = 64) (hr : naturalSize sig.r ≤ 31) :
    sig.r < Digest.toNat (sig.toDer.take 32) := by
  have hfirst : sig.r < 256 ^ 31 := by
    calc sig.r = Digest.toNat (naturalContents sig.r) := (toNat_naturalContents _).symm
      _ < 256 ^ naturalSize sig.r := by rw [← length_naturalContents]; exact Digest.toNat_lt _
      _ ≤ 256 ^ 31 := Nat.pow_le_pow_right (by decide) hr
  obtain ⟨rest, hrest⟩ : ∃ rest, sig.toDer = sequence :: rest := ⟨_, rfl⟩
  rw [hrest, List.length_cons] at hlength
  have htake : (rest.take 31).length = 31 := by rw [List.length_take]; omega
  calc sig.r < 256 ^ 31 := hfirst
    _ ≤ sequence.toNat * 256 ^ 31 := Nat.le_mul_of_pos_left _ (by decide)
    _ ≤ sequence.toNat * 256 ^ 31 + Digest.toNat (rest.take 31) := Nat.le_add_right _ _
    _ = Digest.toNat (sig.toDer.take 32) := by rw [hrest, List.take_succ_cons, Digest.toNat_cons, htake]

/-- What the bytes of a sequence after the first 32 write is larger than the second integer when the first
one goes beyond these 32. -/
theorem InRange.s_lt_toNat_drop (h : sig.InRange) (hr : 32 ≤ naturalSize sig.r) :
    sig.s < Digest.toNat (sig.toDer.drop 32) := by
  have hheader : 32 ≤ ([sequence, UInt8.ofNat (naturalSize sig.r + naturalSize sig.s + 4)] ++
      encodeNatural sig.r).length := by
    rw [List.length_append, length_encodeNatural h.1]
    omega
  rw [h.toDer_eq, ← List.append_assoc, List.drop_append_of_le_length hheader,
    encodeNatural_of_isScalar h.2, ← List.append_assoc, Digest.toNat_append, toNat_naturalContents]
  refine Nat.lt_add_of_pos_left (Nat.mul_pos ?_ (Nat.pow_pos (by decide)))
  rw [Digest.toNat_append, Digest.toNat_cons]
  exact Nat.add_pos_right _ (Nat.add_pos_left (Nat.mul_pos (by decide) (Nat.pow_pos (by decide))) _)

/-- A sequence of 64 bytes is not read as the pair that was written. -/
theorem InRange.ofBytes?_toDer_ne (h : sig.InRange) (hlength : sig.toDer.length = 64) :
    ofBytes? sig.toDer ≠ some sig := by
  rw [ofBytes?, if_pos hlength, ne_eq, ofParts?_eq_some_iff]
  rintro ⟨hr, hs, -⟩
  rcases Nat.lt_or_ge 31 (naturalSize sig.r) with hsize | hsize
  · exact (h.s_lt_toNat_drop hsize).ne' hs
  · exact (r_lt_toNat_take hlength hsize).ne' hr

end Signature

namespace TokenData

/-- The token of data with a given signature. -/
def signedWith (data : TokenData) (sig : Signature) : Token :=
  ⟨data, String.ofList (Base64.encode sig.toDer)⟩

/-- A token is issued with a pair in the range of signatures. -/
theorem exists_signedWith_of_sign? {data : TokenData} {keyText : String} {t : Token}
    (h : data.sign? keyText = some t) : ∃ sig : Signature, sig.InRange ∧ t = data.signedWith sig := by
  simp only [sign?, Option.bind_eq_bind, Option.bind_eq_some_iff] at h
  obtain ⟨secret, -, sig, hsign, ht⟩ := h
  simp only [Signature.sign?, Option.bind_eq_bind, Option.bind_eq_some_iff] at hsign
  obtain ⟨z, -, ⟨x, y⟩, -, hparts⟩ := hsign
  obtain ⟨-, -, hsig⟩ := Signature.ofParts?_eq_some_iff.1 hparts
  exact ⟨sig, hsig, (Option.some.inj ht).symm⟩

/-- The bytes of the signature that was attached are those that are read. -/
theorem signature?_signedWith (data : TokenData) (sig : Signature) :
    (data.signedWith sig).signature? = Signature.ofBytes? sig.toDer := by
  rw [Token.signature?, signedWith, Text.trim_of_noBlanks, String.toList_ofList, Base64.decode?_encode,
    Option.bind_some]
  rw [String.toList_ofList]
  exact Base64.isBlank_of_mem_encode

/-- **An issued signature is read back exactly when it does not take 64 bytes.** Whatever private key signs
the data of a token, the token is issued with a pair of numbers in the range of signatures. With any such
pair, it is read with this very pair exactly when the contents of the two integers do not have 58 bytes
together. The verdict on the token is then that on the pair, under the key of the certificate that the token
carries, and never an error about its form. -/
theorem issued_signature_read_back_iff (data : TokenData) :
    (∀ keyText t, data.sign? keyText = some t →
        ∃ sig : Signature, sig.InRange ∧ t = data.signedWith sig) ∧
      ∀ sig : Signature, sig.InRange →
        ((data.signedWith sig).signature? = some sig ↔
            naturalSize sig.r + naturalSize sig.s ≠ 58) ∧
          (naturalSize sig.r + naturalSize sig.s ≠ 58 →
            (data.signedWith sig).verifySignature =
              (data.signedWith sig).certifiedKey.map fun key =>
                sig.verifies key data.canonicalBytes) := by
  refine ⟨fun _ _ => exists_signedWith_of_sign?, fun sig hsig => ?_⟩
  have hlength := hsig.length_toDer
  have hread (h : naturalSize sig.r + naturalSize sig.s ≠ 58) :
      (data.signedWith sig).signature? = some sig := by
    rw [signature?_signedWith, Signature.ofBytes?, if_neg (by omega), hsig.ofDer?_toDer]
  refine ⟨⟨fun h hsize => ?_, hread⟩, fun h => ?_⟩
  · rw [signature?_signedWith] at h
    exact hsig.ofBytes?_toDer_ne (by omega) h
  · rw [Token.verifySignature, hread h]
    rfl

end TokenData

namespace Sample

/-- The data of a token that carries no certificate. -/
def issuedData : TokenData :=
  ⟨"ORG1", "TrustedParty", 1701497151, 1699999000, "ab12", ⟨"http://host/A", "SHA256", "http://party", ""⟩⟩

/-- The pair of the least and the greatest number. -/
def extremePair : Signature := ⟨1, Curve.groupOrder - 1⟩

/-- The least and the greatest number make a sequence of 40 bytes, which is read back. -/
theorem extremePair_read_back :
    extremePair.InRange ∧ (issuedData.signedWith extremePair).signature? = some extremePair :=
  ⟨by decide, ((TokenData.issued_signature_read_back_iff issuedData).2 extremePair (by decide)).1.2
    (by decide)⟩

/-- A pair of numbers of 29 bytes each. -/
def shortPair : Signature :=
  ⟨0x4569d1e753ebc00f2a04d60bf25548f3aedd1fcd9ad61c9009a9c92c28,
    0x3d66bd22691271c208b372fbf3ff97f3098287354f26c6def8bffbbac2⟩

/-- **Not every issued signature is read back.** -/
theorem not_forall_signatures_read_back :
    ¬ ∀ (data : TokenData) (sig : Signature), sig.InRange →
      (data.signedWith sig).signature? = some sig := by
  intro h
  have hread := h issuedData shortPair (by decide)
  rw [TokenData.signature?_signedWith] at hread
  exact absurd hread (by decide +kernel)

end Sample

end ProvenanceTrail
