import Mathlib.Data.Set.Function
import ProvenanceTrail.Proofs.Graph.Token
import ProvenanceTrail.Proofs.Trust.Digests
import ProvenanceTrail.Proofs.Trust.SignedTokens

/-!
# Remembered verdicts

Whether a token is signed depends on the token alone, so a verdict may be remembered; it stands under the
digest of the whole token, signature included. The invariant that carries the module is `VerdictCache.Sound`:
whatever is remembered is the verdict on one of the tokens that occur. As long as the digest keeps these
tokens apart, what is found under the key of a token is the verdict on this token, and the answers to a
sequence of calls are those of a verifier that remembers nothing (`Verifier.Sound.reports_eq`). Errors are not
remembered, so they come back as they would have come the first time.

What remains is to say what such a verifier decides: `TokenRegistry.verdict_eq_ok_none_iff`.
-/

namespace ProvenanceTrail

namespace Token

/-- A token that vouches for a bundle: it names the bundle, carries the digest that is pinned, if one is, up
to blanks around it and the case of letters, is signed, and is among the tokens that were issued, in a registry
that can be reached. An issued token that is equal to it names the same trusted party and originator. -/
structure Vouches (t : Token) (r : TokenRegistry) (bundle : QualifiedName) (pinned : Option String) :
    Prop where
  names : t.data.additionalData.bundle = bundle.uri
  agrees : ∀ digest ∈ pinned, ∃ x y, Text.IsTrimmed digest x ∧ Text.IsTrimmed t.data.documentDigest y ∧
    Text.SameUpToCase x y
  signed : t.IsSigned
  listed : r.reachable = true ∧ t ∈ r.issued

end Token

/-! ## What is decided -/

namespace TokenRegistry

variable {r : TokenRegistry} {t : Token}

/-- The verdict on a bundle where nothing is remembered: a failure, none, or an error. -/
def verdict (r : TokenRegistry) (bundle : QualifiedName) (token : Option Token)
    (pinned : Option String) : Except IntegrityError (Option IntegrityFailure) :=
  ((Verifier.mk r none).verify bundle token pinned).1.map (·.failure)

/-- What remains to be decided on a token once it is known whether it is signed. -/
def verdictOn (r : TokenRegistry) (t : Token) (signed : Bool) :
    Except IntegrityError (Option IntegrityFailure) :=
  if signed then
    ((Verifier.mk r none).isListed t).map fun listed => if listed then none else some .notRegistered
  else .ok (some .badSignature)

/-- A token is on the list for its own trusted party and originator exactly if it was issued. -/
theorem isListed_eq_ok_true_iff :
    (Verifier.mk r none).isListed t = .ok true ↔ r.reachable = true ∧ t ∈ r.issued := by
  rw [Verifier.isListed, tokensOf]
  cases r.reachable <;> simp

/-- A token passes what remains just if it is signed and listed. -/
theorem verdictOn_eq_ok_none_iff {signed : Bool} : r.verdictOn t signed = .ok none ↔
    signed = true ∧ (Verifier.mk r none).isListed t = .ok true := by
  cases signed with
  | false => simp [verdictOn]
  | true =>
    rcases h : (Verifier.mk r none).isListed t with _ | _ | _ <;> simp [verdictOn, h, Except.map]

end TokenRegistry

namespace Verifier

/-- A token agrees with a pin just if the trimmed digests are equal up to case. -/
theorem agreesWithPin_eq_true_iff {t : Token} {pinned : Option String} :
    agreesWithPin t pinned = true ↔ ∀ digest ∈ pinned, ∃ x y, Text.IsTrimmed digest x ∧
      Text.IsTrimmed t.data.documentDigest y ∧ Text.SameUpToCase x y := by
  cases pinned with
  | none => simp [agreesWithPin]
  | some digest => simp [agreesWithPin, Digest.agree_iff]

/-- What a verifier remembers bears on the failure that it reports only through the verdict on the
signature. -/
theorem verify_some (v : Verifier) (bundle : QualifiedName) (t : Token) (pinned : Option String) :
    (v.verify bundle (some t) pinned).1.map (·.failure) =
      if t.data.additionalData.bundle ≠ bundle.uri then .ok (some .bundleMismatch)
      else if !agreesWithPin t pinned then .ok (some .digestMismatch)
      else ((v.signatureVerdict t).1.map (·.1)).bind
        ((v.signatureVerdict t).2.registry.verdictOn t) := by
  simp only [verify]
  split_ifs
  · rfl
  · rfl
  · rcases v.signatureVerdict t with ⟨_ | ⟨_ | _, hit⟩, after⟩
    · rfl
    · rfl
    · have hlisted : (Verifier.mk after.registry none).isListed t = after.isListed t := rfl
      simp only [Except.map, Except.bind, TokenRegistry.verdictOn, hlisted, if_true]
      cases after.isListed t <;> rfl

/-- A call leaves the verifier, or does to it what the verdict on the signature does. -/
theorem verify_after (v : Verifier) (bundle : QualifiedName) (t : Token) (pinned : Option String) :
    (v.verify bundle (some t) pinned).2 = v ∨
      (v.verify bundle (some t) pinned).2 = (v.signatureVerdict t).2 := by
  simp only [verify]
  split_ifs
  · exact .inl rfl
  · exact .inl rfl
  · rcases v.signatureVerdict t with ⟨_ | ⟨_ | _, hit⟩, after⟩
    · exact .inr rfl
    · exact .inr rfl
    · refine .inr ?_
      simp only
      cases after.isListed t <;> rfl

end Verifier

/-- Without a memory, the checks of a token are made in this order. -/
theorem TokenRegistry.verdict_some (r : TokenRegistry) (bundle : QualifiedName) (t : Token)
    (pinned : Option String) :
    r.verdict bundle (some t) pinned =
      if t.data.additionalData.bundle ≠ bundle.uri then .ok (some .bundleMismatch)
      else if !Verifier.agreesWithPin t pinned then .ok (some .digestMismatch)
      else t.verifySignature.bind (r.verdictOn t) := by
  rw [verdict, Verifier.verify_some, Verifier.signatureVerdict]
  cases t.verifySignature <;> rfl

/-- A bundle is trusted exactly when there is a token and the token vouches for the bundle. -/
theorem TokenRegistry.verdict_eq_ok_none_iff {r : TokenRegistry} {bundle : QualifiedName}
    {token : Option Token} {pinned : Option String} :
    r.verdict bundle token pinned = .ok none ↔ ∃ t, token = some t ∧ t.Vouches r bundle pinned := by
  cases token with
  | none => simp [verdict, Verifier.verify, Except.map]
  | some t =>
    have hsigned : t.verifySignature.bind (r.verdictOn t) = .ok none ↔
        t.verifySignature = .ok true ∧ (Verifier.mk r none).isListed t = .ok true := by
      cases t.verifySignature <;> simp [Except.bind, verdictOn_eq_ok_none_iff]
    rw [verdict_some]
    constructor
    · intro h
      split_ifs at h with hnames hagrees
      · cases h
      · cases h
      · obtain ⟨hsig, hlisted⟩ := hsigned.1 h
        exact ⟨t, rfl, not_not.1 hnames,
          Verifier.agreesWithPin_eq_true_iff.1 (by simpa using hagrees),
          Token.verifySignature_eq_ok_true_iff.1 hsig, isListed_eq_ok_true_iff.1 hlisted⟩
    · rintro ⟨_, ⟨⟩, hnames, hagrees, hsig, hlisted⟩
      rw [if_neg (not_not.2 hnames),
        if_neg (by simp [Verifier.agreesWithPin_eq_true_iff.2 hagrees])]
      exact hsigned.2 ⟨Token.verifySignature_eq_ok_true_iff.2 hsig,
        isListed_eq_ok_true_iff.2 hlisted⟩

/-! ## What is remembered -/

/-- The digest of whole tokens keeps the tokens of a list apart. -/
def Token.KeptApart (tokens : List Token) : Prop :=
  ∀ t ∈ tokens, ∀ t' ∈ tokens, t.verdictKey = t'.verdictKey → t = t'

namespace VerdictCache

variable {tokens : List Token} {c : VerdictCache} {t : Token} {valid : Bool}

/-- What is remembered are verdicts on tokens of the list, each under the key of its token. -/
def Sound (tokens : List Token) (c : VerdictCache) : Prop :=
  ∀ e ∈ c.entries, ∃ t ∈ tokens, t.verdictKey = e.1 ∧ t.verifySignature = .ok e.2

/-- An empty cache is sound. -/
theorem sound_empty (capacity : Nat) : (empty capacity).Sound tokens :=
  fun _ he => absurd he List.not_mem_nil

/-- A cleared cache is sound. -/
theorem sound_clear (c : VerdictCache) : c.clear.Sound tokens :=
  fun _ he => absurd he List.not_mem_nil

/-- A verdict is remembered soundly, whichever others make room for it. -/
theorem Sound.insert (h : c.Sound tokens) (ht : t ∈ tokens) (hvalid : t.verifySignature = .ok valid) :
    (c.insert t.verdictKey valid).Sound tokens := by
  intro e he
  rcases List.mem_cons.1 (List.mem_of_mem_take he) with rfl | he
  · exact ⟨t, ht, rfl, hvalid⟩
  · exact h e (List.mem_of_mem_filter he)

/-- What is found under the key of a token is the verdict on this token. -/
theorem Sound.verifySignature_of_find? (h : c.Sound tokens) (hapart : Token.KeptApart tokens)
    (ht : t ∈ tokens) (hfind : c.find? t.verdictKey = some valid) : t.verifySignature = .ok valid := by
  obtain ⟨e, he, rfl⟩ := Option.map_eq_some_iff.1 hfind
  have hkey : e.1 = t.verdictKey := by simpa using List.find?_some he
  obtain ⟨t', ht', hkey', hvalid⟩ := h e (List.mem_of_find?_eq_some he)
  rwa [hapart t ht t' ht' (hkey.symm.trans hkey'.symm)]

end VerdictCache

namespace Verifier

variable {tokens : List Token} {v : Verifier} {t : Token}

/-- A verifier whose verdicts, if it remembers any, are sound. -/
def Sound (tokens : List Token) (v : Verifier) : Prop := ∀ c ∈ v.cache, c.Sound tokens

/-- The verdict on a signature is the same whether it is remembered or not, and remembering it keeps the
verifier sound. -/
theorem Sound.signatureVerdict (h : v.Sound tokens) (hapart : Token.KeptApart tokens)
    (ht : t ∈ tokens) :
    (v.signatureVerdict t).1.map (·.1) = t.verifySignature ∧
      (v.signatureVerdict t).2.registry = v.registry ∧ (v.signatureVerdict t).2.Sound tokens := by
  obtain ⟨registry, cache⟩ := v
  cases cache with
  | none =>
    refine ⟨?_, rfl, h⟩
    simp only [Verifier.signatureVerdict]
    cases t.verifySignature <;> rfl
  | some c =>
    have hc : c.Sound tokens := h c rfl
    simp only [Verifier.signatureVerdict]
    cases hfind : c.find? t.verdictKey with
    | some valid => exact ⟨(hc.verifySignature_of_find? hapart ht hfind).symm, rfl, h⟩
    | none =>
      cases hvalid : t.verifySignature with
      | error e => exact ⟨rfl, rfl, h⟩
      | ok valid =>
        refine ⟨rfl, rfl, fun c' hc' => ?_⟩
        cases hc'
        exact hc.insert ht hvalid

/-- A call of `verify` reports what a verifier reports that remembers nothing. -/
theorem Sound.verify (h : v.Sound tokens) (hapart : Token.KeptApart tokens) (bundle : QualifiedName)
    {token : Option Token} (ht : ∀ t ∈ token, t ∈ tokens) (pinned : Option String) :
    (v.verify bundle token pinned).1.map (·.failure) = v.registry.verdict bundle token pinned ∧
      (v.verify bundle token pinned).2.registry = v.registry ∧
      (v.verify bundle token pinned).2.Sound tokens := by
  cases token with
  | none => exact ⟨rfl, rfl, h⟩
  | some t =>
    obtain ⟨hsame, hregistry, hsound⟩ := h.signatureVerdict hapart (ht t rfl)
    refine ⟨?_, ?_⟩
    · rw [verify_some, TokenRegistry.verdict_some, hsame, hregistry]
    · rcases v.verify_after bundle t pinned with hafter | hafter <;> rw [hafter]
      · exact ⟨rfl, h⟩
      · exact ⟨hregistry, hsound⟩

/-- A verifier is sound once its cache is cleared. -/
theorem sound_clearCache (v : Verifier) : v.clearCache.Sound tokens := by
  intro c hc
  obtain ⟨c, -, rfl⟩ := Option.map_eq_some_iff.1 hc
  exact VerdictCache.sound_clear c

end Verifier

/-! ## Sequences of calls -/

/-- A use of a verifier. -/
inductive VerifierCall where
  | verify (bundle : QualifiedName) (token : Option Token) (pinned : Option String)
  | clear

/-- The verifier after a use. -/
def VerifierCall.run (v : Verifier) : VerifierCall → Verifier
  | .verify bundle token pinned => (v.verify bundle token pinned).2
  | .clear => v.clearCache

namespace VerifierCall

/-- The token that a call is about. -/
def token? : VerifierCall → Option Token
  | .verify _ token _ => token
  | .clear => none

/-- What a call reports: for `verify` a failure, none, or an error. -/
def report (v : Verifier) : VerifierCall → Option (Except IntegrityError (Option IntegrityFailure))
  | .verify bundle token pinned => some ((v.verify bundle token pinned).1.map (·.failure))
  | .clear => none

/-- What a call reports where nothing is remembered. -/
def verdict (r : TokenRegistry) : VerifierCall → Option (Except IntegrityError (Option IntegrityFailure))
  | .verify bundle token pinned => some (r.verdict bundle token pinned)
  | .clear => none

end VerifierCall

namespace Verifier

variable {tokens : List Token} {v : Verifier}

/-- What the calls of a sequence report, one after the other on one verifier. -/
def reports (v : Verifier) :
    List VerifierCall → List (Option (Except IntegrityError (Option IntegrityFailure)))
  | [] => []
  | c :: calls => c.report v :: (c.run v).reports calls

/-- A call on a sound verifier reports what it would report if nothing were remembered, and leaves the
verifier sound. -/
theorem Sound.report (h : v.Sound tokens) (hapart : Token.KeptApart tokens) {c : VerifierCall}
    (hc : ∀ t ∈ c.token?, t ∈ tokens) :
    c.report v = c.verdict v.registry ∧ (c.run v).registry = v.registry ∧ (c.run v).Sound tokens := by
  cases c with
  | verify bundle token pinned =>
    obtain ⟨hreport, hafter⟩ := h.verify hapart bundle hc pinned
    exact ⟨congrArg some hreport, hafter⟩
  | clear => exact ⟨rfl, rfl, sound_clearCache v⟩

/-- What is remembered never shows in what is reported. -/
theorem Sound.reports_eq (h : v.Sound tokens) (hapart : Token.KeptApart tokens)
    {calls : List VerifierCall} (hcalls : ∀ t ∈ calls.filterMap VerifierCall.token?, t ∈ tokens) :
    v.reports calls = calls.map (VerifierCall.verdict v.registry) := by
  induction calls generalizing v with
  | nil => rfl
  | cons c calls ih =>
    have hc : ∀ t ∈ c.token?, t ∈ tokens := fun t ht =>
      hcalls t (List.mem_filterMap.2 ⟨c, List.mem_cons_self, ht⟩)
    have hrest : ∀ t ∈ calls.filterMap VerifierCall.token?, t ∈ tokens := fun t ht => by
      obtain ⟨c', hc', ht'⟩ := List.mem_filterMap.1 ht
      exact hcalls t (List.mem_filterMap.2 ⟨c', List.mem_cons_of_mem _ hc', ht'⟩)
    obtain ⟨hreport, hregistry, hsound⟩ := h.report hapart hc
    rw [reports, hreport, ih hsound hrest, hregistry, List.map_cons]

end Verifier

/-- Tokens with different canonical bytes are different, so a digest without collisions on the bytes that
occur keeps the tokens apart. -/
theorem Token.keptApart_of_injOn {tokens : List Token}
    (h : Set.InjOn Digest.Sha256.digest {bytes | ∃ t ∈ tokens, t.canonicalBytes = bytes}) :
    Token.KeptApart tokens := fun t ht t' ht' hkey =>
  canonicalBytes_inj.1 (h ⟨t, ht, rfl⟩ ⟨t', ht', rfl⟩ hkey)

/-- Remembering verdicts is invisible, and trust is exact. Take any registry, any capacity and any sequence
of `verify` and `clear` calls, on tokens whose canonical bytes the digest keeps apart. Each
`verify` reports the same failure, or the same error, on a verifier that remembers verdicts and on one
that does not; and it reports that the bundle is trusted exactly when there is a token and the token
vouches for the bundle. -/
theorem Verifier.verdicts_exact (registry : TokenRegistry) (capacity : Nat) (calls : List VerifierCall)
    (hinj : Set.InjOn Digest.Sha256.digest
      {bytes | ∃ t ∈ calls.filterMap VerifierCall.token?, t.canonicalBytes = bytes}) :
    ∀ (i : Nat) bundle token pinned, calls[i]? = some (.verify bundle token pinned) →
      ∃ answer, ((Verifier.mk registry (some (.empty capacity))).reports calls)[i]? = some (some answer) ∧
        ((Verifier.mk registry none).reports calls)[i]? = some (some answer) ∧
        (answer = .ok none ↔ ∃ t, token = some t ∧ t.Vouches registry bundle pinned) := by
  have hapart := Token.keptApart_of_injOn hinj
  have hcached : (Verifier.mk registry (some (.empty capacity))).Sound
      (calls.filterMap VerifierCall.token?) := by
    rintro c ⟨⟩
    exact VerdictCache.sound_empty capacity
  have hdirect : (Verifier.mk registry none).Sound (calls.filterMap VerifierCall.token?) :=
    fun c hc => absurd hc (Option.not_mem_none c)
  intro i bundle token pinned hi
  refine ⟨registry.verdict bundle token pinned, ?_, ?_, TokenRegistry.verdict_eq_ok_none_iff⟩
  · rw [hcached.reports_eq hapart fun t ht => ht, List.getElem?_map, hi]
    rfl
  · rw [hdirect.reports_eq hapart fun t ht => ht, List.getElem?_map, hi]
    rfl

namespace Sample

/-- A certificate of few bytes. Its key is the generator of the group. -/
def shortCertificate : String :=
  "-----BEGIN CERTIFICATE-----\nMGcwWwIBATAFBgMqAwQwADAeFw03MDAxMDEwMDAwMDBaFw03MDAxMDEwMDAwMDBaMAAwKzAFBgMqAwQDIgADaxfR8uEsQkf4vOblY6RA8ncDfYEt6zOg9KE5RdiYwpYwBQYDKgMEAwEA\n-----END CERTIFICATE-----\n"

def certifiedData : TokenData :=
  ⟨"O", "A", 1, -1, "ab12", ⟨"http://host/a", "SHA256", "party", shortCertificate⟩⟩

/-- The token of this data with a signature. -/
def signedBy (signature : String) : Token := ⟨certifiedData, signature⟩

/-- The signature is the one that is issued with the number 1 for a secret. -/
def genuine : Token :=
  signedBy "MEUCIGsX0fLhLEJH+Lzm5WOkQPJ3A32BLeszoPShOUXYmMKWAiEApHh2GRMFpBvy8vWnchgsjjoBFTNYjxGI7AT4ogb/hOY="

/-- The signature is the pair (1, 1). -/
def forged : Token := signedBy "MAYCAQECAQE="

/-- Of two tokens, the first is presented twice, then the second and the first again, and this one once more after
the cache was cleared. -/
def presented (t u : Token) : List VerifierCall :=
  [.verify ⟨"http://host/", "a"⟩ (some t) none,
    .verify ⟨"http://host/", "a"⟩ (some t) (some "AB12"),
    .verify ⟨"http://host/", "a"⟩ (some u) none,
    .verify ⟨"http://host/", "a"⟩ (some t) none,
    .clear,
    .verify ⟨"http://host/", "a"⟩ (some t) none]

/-- A verifier with room for one verdict, for which one token was issued. -/
def remembering (t : Token) (entries : List (List UInt8 × Bool)) : Verifier := ⟨⟨[t], true⟩, some ⟨1, entries⟩⟩

/-- Which calls of a sequence are answered from memory. -/
def hits (v : Verifier) : List VerifierCall → List Bool
  | [] => []
  | c :: calls =>
    (match c with
      | .verify bundle token pinned => (v.verify bundle token pinned).1.toOption.any (·.cacheHit)
      | .clear => false) :: hits (c.run v) calls

set_option maxRecDepth 4000 in
/-- The certificate of the sample tokens holds the generator. -/
theorem certifiedKey_signedBy (signature : String) : (signedBy signature).certifiedKey = .ok .generator := by
  have hkey : (signedBy "").certifiedKey.toOption = some .generator := by
    simp only [Token.certifiedKey, signedBy, certifiedData, Pem.firstBlock?]
    rw [show shortCertificate.toList = _ from String.toList_ofList]
    decide +kernel
  have hsame : (signedBy signature).certifiedKey = (signedBy "").certifiedKey := Token.certifiedKey_congr rfl
  rw [hsame]
  -- the key is named, since evaluating it takes long
  generalize (signedBy "").certifiedKey = read at hkey ⊢
  cases read with
  | error e => cases hkey
  | ok key => exact congrArg _ (Option.some.inj hkey)

/-- A sample token whose signature can be read is verified by the generator. -/
theorem verifySignature_signedBy {signature : String} {sig : Signature}
    (h : (signedBy signature).signature? = some sig) :
    (signedBy signature).verifySignature = .ok (sig.verifies .generator certifiedData.canonicalBytes) := by
  rw [Token.verifySignature, h, certifiedKey_signedBy]
  rfl

set_option maxRecDepth 4000 in
/-- The digest of the data that the sample tokens share. -/
theorem digest_certifiedData :
    Digest.toNat (Digest.Sha256.digest certifiedData.canonicalBytes) =
      0x3960a42631d961d3fa360ec20e73eb9bc2fd97b22aa3dde7f763bf5c2e66c250 := by
  simp only [TokenData.canonicalBytes_eq_flatMap, TokenData.normalize_toJson,
    AdditionalTokenData.normalize_toJson, certifiedData, Json.render, Json.renderMembers, Json.quote]
  rw [show shortCertificate.toList = _ from String.toList_ofList]
  decide +kernel

/-- A verification with the numbers and points that it goes through. Each is evaluated by itself, from numbers. -/
theorem verifies_of_steps {sig : Signature} {w : Nat} {p q s : Curve.Point}
    (hw : Curve.inverse Curve.groupOrder sig.s = w)
    (hp : Curve.Point.generator.times
      (0x3960a42631d961d3fa360ec20e73eb9bc2fd97b22aa3dde7f763bf5c2e66c250 * w % Curve.groupOrder) = p)
    (hq : Curve.Point.generator.times (sig.r * w % Curve.groupOrder) = q) (hs : p.add q = s) :
    sig.verifies .generator certifiedData.canonicalBytes =
      s.affine?.any fun coordinates => coordinates.1 % Curve.groupOrder == sig.r := by
  subst hw hp hq hs
  rw [Signature.verifies_eq_any, digest_certifiedData]

/-- The genuine token has a valid signature. -/
theorem verifySignature_genuine : genuine.verifySignature = .ok true := by
  have hsig : genuine.signature? = some
      ⟨0x6b17d1f2e12c4247f8bce6e563a440f277037d812deb33a0f4a13945d898c296,
        0xa47876191305a41bf2f2f5a772182c8e3a011533588f1188ec04f8a206ff84e6⟩ := by
    decide +kernel
  rw [genuine, verifySignature_signedBy hsig, verifies_of_steps
    (w := 0x9aa00372721e731a64c8b566d2fe1dd1bded3ab2f5a7a81ec63042975f2879f2)
    (p := ⟨0x69c9e675182d317d248f1a58db5f6a274396bb9209f74b0dd8757bcc4a83bdcf,
        0x5e2035f73efb2b8998dff39c2819daf15a264342383cf3d3ebba7df174de598e,
        0x9d95f6ac849a49b425b88a75a71950c64720bf0cd325e20bef4d76e1add4fad9⟩)
    (q := ⟨0xb137cd5329284036db281f353dc13b3add0df9e132dbd38fa68889d99dcec867,
        0x5f7242059c7b938f4cfc3aa67076af73d96a308bcba90a9e790fa328801dbc89,
        0xb418b9136c716351833dca9bd8149aa0f32ce766c80cfdf0ba57422b6029ae77⟩)
    (s := ⟨0xcd6acf837bdc8b57f56bf9244f16f5210d4e57159091e6326c7798529aff5a30,
        0xec761b1f6e62a479e03d78f8becb1690f875bb5d8106cedf4863b698b838961e,
        0x2e1b68043c8f31362f39715e148efe7f132df3a03ea304daaf0372aafccdbf5⟩)
    (by decide +kernel) (by decide +kernel) (by decide +kernel) (by decide +kernel)]
  decide +kernel

/-- The forged token has none. -/
theorem verifySignature_forged : forged.verifySignature = .ok false := by
  have hsig : forged.signature? = some ⟨1, 1⟩ := by decide +kernel
  rw [forged, verifySignature_signedBy hsig, verifies_of_steps (w := 1)
    (p := ⟨0xa862941dcaa7ff7650488d985fdfe8003c67cbf0db462609b240df0032a22c08,
        0x9bd1ec27dc5492d5fb417b7fe934004e09b7896d0c40f5f9af168a7fc42d4b39,
        0x49892f080cc045e0b56ad72df5176e4e850a472726aedf9c07b5ce57f4c1b7c2⟩)
    (q := .generator)
    (s := ⟨0x86519b44c3500004aa7f61f06c2dc11ba3637eb79fe7fff52130822df4d8d6b4,
        0x3c4bfa9a6d1004d3df7551f3ccd9cd36e6982fdeb92af56ed715cf4e6ec0fce1,
        0x7e897b3ab8c24a89d9caf163c60f358388831e057382b6650ac0e5559b9fbb7b⟩)
    (by decide +kernel) (by decide +kernel) (by decide +kernel) (by decide +kernel)]
  decide +kernel

set_option maxRecDepth 4000 in
/-- The two sample tokens have different keys. -/
theorem verdictKey_genuine_ne_forged : genuine.verdictKey ≠ forged.verdictKey := by
  simp only [Token.verdictKey, Token.canonicalBytes_eq_flatMap, Token.normalize_toJson,
    TokenData.normalize_toJson, AdditionalTokenData.normalize_toJson, genuine, forged, signedBy, certifiedData,
    Json.render, Json.renderMembers, Json.quote]
  rw [show shortCertificate.toList = _ from String.toList_ofList]
  decide +kernel

section Presented

variable {t u : Token} {pinned : Option String} {valid hit : Bool} {entries : List (List UInt8 × Bool)}

/-- The token that was issued is listed. -/
theorem isListed_remembering : (remembering t entries).isListed t = .ok true := by
  simp [Verifier.isListed, TokenRegistry.tokensOf, remembering]

/-- A token whose verdict is there is answered from memory. -/
theorem signatureVerdict_remembering :
    (remembering t [(u.verdictKey, valid)]).signatureVerdict u =
      (.ok (valid, true), remembering t [(u.verdictKey, valid)]) := by
  simp [Verifier.signatureVerdict, VerdictCache.find?, remembering]

/-- The verdict on another token takes the place of what was there. -/
theorem signatureVerdict_of_forall_ne (hvalid : u.verifySignature = .ok valid)
    (hother : ∀ e ∈ entries, e.1 ≠ u.verdictKey) :
    (remembering t entries).signatureVerdict u =
      (.ok (valid, false), remembering t [(u.verdictKey, valid)]) := by
  have hfind : entries.find? (fun e => e.1 == u.verdictKey) = none :=
    List.find?_eq_none.2 fun e he => by simpa using hother e he
  simp [Verifier.signatureVerdict, VerdictCache.find?, VerdictCache.insert, remembering, hfind, hvalid]

/-- A sample token that is presented is judged by its signature alone. -/
theorem verify_presented {v v' : Verifier} (hu : u.data = certifiedData) (hpin : ∀ digest ∈ pinned, digest = "AB12")
    (hverdict : v.signatureVerdict u = (.ok (valid, hit), v')) (hlisted : valid = true → v'.isListed u = .ok true) :
    v.verify ⟨"http://host/", "a"⟩ (some u) pinned =
      (.ok ⟨if valid then none else some .badSignature, hit⟩, v') := by
  have hbundle : certifiedData.additionalData.bundle = (QualifiedName.mk "http://host/" "a").uri := rfl
  have hagrees : Verifier.agreesWithPin u pinned = true := by
    have hdigest : Digest.agree "AB12" certifiedData.documentDigest = true := by decide +kernel
    rw [Verifier.agreesWithPin, hu, Option.all_eq_true]
    exact fun digest h => hpin digest h ▸ hdigest
  simp only [Verifier.verify, hu, hbundle, hagrees, hverdict, ne_eq, not_true_eq_false, if_false, Bool.not_true,
    Bool.false_eq_true]
  cases valid with
  | false => rfl
  | true => simp [hlisted rfl]

/-- Of two tokens with this data, one is signed. It is answered from memory while its verdict is there; the
verdict on the other takes its place. -/
theorem answers_presented (ht : t.data = certifiedData) (hu : u.data = certifiedData)
    (hsigned : t.verifySignature = .ok true) (hforged : u.verifySignature = .ok false)
    (hne : t.verdictKey ≠ u.verdictKey) :
    (remembering t []).reports (presented t u) =
        [some (.ok none), some (.ok none), some (.ok (some .badSignature)), some (.ok none), none,
          some (.ok none)] ∧
      hits (remembering t []) (presented t u) = [false, true, false, false, false, false] := by
  have hlisted : true = true → (remembering t [(t.verdictKey, true)]).isListed t = .ok true :=
    fun _ => isListed_remembering
  have hclear : (remembering t [(t.verdictKey, true)]).clearCache = remembering t [] := rfl
  have hnone : ∀ digest ∈ (none : Option String), digest = "AB12" := by simp
  have hpin : ∀ digest ∈ some "AB12", digest = "AB12" := by simp
  have hfirst := verify_presented (v := remembering t []) ht hnone
    (signatureVerdict_of_forall_ne hsigned (by simp)) hlisted
  have hagain := verify_presented ht hpin signatureVerdict_remembering hlisted
  have hother := verify_presented (v := remembering t [(t.verdictKey, true)]) hu hnone
    (signatureVerdict_of_forall_ne hforged (by simpa using hne)) nofun
  have hreturned := verify_presented (v := remembering t [(u.verdictKey, false)]) ht hnone
    (signatureVerdict_of_forall_ne hsigned (by simpa using hne.symm)) hlisted
  simp [presented, Verifier.reports, VerifierCall.report, VerifierCall.run, hits, hclear, Except.map, Except.toOption,
    hfirst, hagain, hother, hreturned]

/-- The digest keeps the two tokens apart. -/
theorem injOn_presented (hne : t.verdictKey ≠ u.verdictKey) : Set.InjOn Digest.Sha256.digest
    {bytes | ∃ v ∈ (presented t u).filterMap VerifierCall.token?, v.canonicalBytes = bytes} := by
  have hmem : ∀ v ∈ (presented t u).filterMap VerifierCall.token?, v = t ∨ v = u := by
    simp [presented, VerifierCall.token?]
  rintro _ ⟨v, hv, rfl⟩ _ ⟨v', hv', rfl⟩ h
  rcases hmem v hv with rfl | rfl <;> rcases hmem v' hv' with rfl | rfl
  · rfl
  · exact absurd h hne
  · exact absurd h.symm hne
  · rfl

end Presented

/-- Two tokens with one data, of which one is signed. What is remembered about the one is not taken for the other,
in a cache with room for one verdict: the signed token is trusted again after the forged one has taken its
place. -/
theorem verdicts_of_equal_data :
    Set.InjOn Digest.Sha256.digest
        {bytes | ∃ t ∈ (presented genuine forged).filterMap VerifierCall.token?, t.canonicalBytes = bytes} ∧
      (remembering genuine []).reports (presented genuine forged) =
        [some (.ok none), some (.ok none), some (.ok (some .badSignature)), some (.ok none), none,
          some (.ok none)] ∧
      hits (remembering genuine []) (presented genuine forged) = [false, true, false, false, false, false] ∧
      ((Verifier.mk ⟨[genuine], true⟩ none).reports (presented genuine forged))[3]? = some (some (.ok none)) ∧
      genuine.Vouches ⟨[genuine], true⟩ ⟨"http://host/", "a"⟩ (some "AB12") ∧
      ¬forged.Vouches ⟨[genuine], true⟩ ⟨"http://host/", "a"⟩ none := by
  have hinj := injOn_presented verdictKey_genuine_ne_forged
  have hexact := Verifier.verdicts_exact ⟨[genuine], true⟩ 0 (presented genuine forged) hinj
  obtain ⟨hreports, hhits⟩ := answers_presented rfl rfl verifySignature_genuine verifySignature_forged
    verdictKey_genuine_ne_forged
  -- a cache without room is given room for one verdict
  have hempty : (Verifier.mk ⟨[genuine], true⟩ (some (.empty 0))).reports (presented genuine forged) = _ := hreports
  rw [hempty] at hexact
  refine ⟨hinj, hreports, hhits, ?_, ?_, ?_⟩
  · obtain ⟨answer, hcached, hdirect, -⟩ := hexact 3 _ _ _ rfl
    cases hcached
    exact hdirect
  · obtain ⟨answer, hcached, -, htrusted⟩ := hexact 1 _ _ _ rfl
    cases hcached
    obtain ⟨t, ht, hvouches⟩ := htrusted.1 rfl
    cases ht
    exact hvouches
  · obtain ⟨answer, hcached, -, htrusted⟩ := hexact 2 _ _ _ rfl
    cases hcached
    exact fun hvouches => nomatch htrusted.2 ⟨_, rfl, hvouches⟩

end Sample

end ProvenanceTrail
