import ProvenanceTrail.Graph.Token
import ProvenanceTrail.Json.Record
import ProvenanceTrail.Proofs.Json.Canonical
import ProvenanceTrail.Proofs.Json.Form

/-!
# Canonical tokens

The canonical texts of all tokens have the same keys in the same order, so they differ only in the values
of the fields, and where such a value ends is seen from the text. This tells tokens apart, with timestamps
of any size (`Token.canonicalBytes_inj`). Timestamps that were read fit 64 bits, and for these the
canonical text is itself a text of the token (`Token.ofText?_canonical`).
-/

namespace ProvenanceTrail

open Json

namespace AdditionalTokenData

/-- Additional data in canonical order. -/
theorem normalize_toJson (d : AdditionalTokenData) :
    d.toJson.normalize = .object [("bundle", .string d.bundle), ("hashFunction", .string d.hashFunction),
      ("trustedPartyCertificate", .string d.trustedPartyCertificate),
      ("trustedPartyUri", .string d.trustedPartyUri)] := by
  simp (disch := decide) only [toJson, Json.normalize, normalizeMembers, sortMembers, List.foldl_cons,
    List.foldl_nil, insertMember_nil, insertMember_of_lt, insertMember_of_gt]

/-- Additional data is read back from its canonical order. -/
theorem ofJson?_normalize (d : AdditionalTokenData) : ofJson? d.toJson.normalize = some d := by
  rw [normalize_toJson]
  simp [ofJson?, fields?, occurrences, lookup, required?, string?]

/-- The canonical text of additional data determines it, and where it ends. -/
theorem render_append_inj {d d' : AdditionalTokenData} {r r' : List Char} :
    d.toJson.normalize.render ++ r = d'.toJson.normalize.render ++ r' ↔ d = d' ∧ r = r' := by
  obtain ⟨bundle, hashFunction, uri, certificate⟩ := d
  obtain ⟨bundle', hashFunction', uri', certificate'⟩ := d'
  rw [normalize_toJson, normalize_toJson]
  simp only [render, renderMembers, List.cons_append, List.append_assoc, List.cons.injEq, true_and,
    List.append_cancel_left_eq, List.nil_append, quote_append_inj, mk.injEq]
  tauto

end AdditionalTokenData

namespace TokenData

/-- Token data in canonical order. -/
theorem normalize_toJson (d : TokenData) :
    d.toJson.normalize = .object [("additionalData", d.additionalData.toJson.normalize),
      ("authorityId", .string d.authorityId),
      ("documentCreationTimestamp", Json.ofInt d.documentCreationTimestamp),
      ("documentDigest", .string d.documentDigest), ("originatorId", .string d.originatorId),
      ("tokenTimestamp", Json.ofInt d.tokenTimestamp)] := by
  have ofInt (i : Int) : (Json.ofInt i).normalize = Json.ofInt i := by cases i <;> rfl
  simp (disch := decide) only [toJson, Json.normalize, normalizeMembers, sortMembers, List.foldl_cons,
    List.foldl_nil, insertMember_nil, insertMember_of_lt, insertMember_of_gt, ofInt]

/-- The canonical text of token data determines it, and where it ends. -/
theorem render_append_inj {d d' : TokenData} {r r' : List Char} :
    d.toJson.normalize.render ++ r = d'.toJson.normalize.render ++ r' ↔ d = d' ∧ r = r' := by
  obtain ⟨originator, authority, tokenTime, creationTime, digest, additional⟩ := d
  obtain ⟨originator', authority', tokenTime', creationTime', digest', additional'⟩ := d'
  rw [normalize_toJson, normalize_toJson]
  simp (disch := decide) only [render, renderMembers, List.cons_append, List.append_assoc,
    List.cons.injEq, true_and, List.append_cancel_left_eq, List.nil_append, quote_append_inj,
    ofInt_render_append_inj, AdditionalTokenData.render_append_inj, mk.injEq]
  tauto

/-- What is signed tells the data of tokens apart. -/
theorem canonicalBytes_inj {d d' : TokenData} : d.canonicalBytes = d'.canonicalBytes ↔ d = d' := by
  have hbytes := Text.bytes_inj (s := d.toJson.canonical) (t := d'.toJson.canonical)
  have hrender : d.toJson.normalize.render ++ [] = d'.toJson.normalize.render ++ [] ↔ d = d' ∧ _ :=
    render_append_inj
  simp only [List.append_nil, and_true] at hrender
  refine hbytes.trans ?_
  rw [canonical, canonical, String.ofList_inj, hrender]

/-- The canonical bytes of token data are those of its canonical text. -/
theorem canonicalBytes_eq_flatMap (d : TokenData) :
    d.canonicalBytes = d.toJson.normalize.render.flatMap String.utf8EncodeChar :=
  Text.bytes_ofList _

end TokenData

namespace Token

/-- A token in canonical order. -/
theorem normalize_toJson (t : Token) :
    t.toJson.normalize =
      .object [("data", t.data.toJson.normalize), ("signature", .string t.signature)] := by
  simp (disch := decide) only [toJson, Json.normalize, normalizeMembers, sortMembers, List.foldl_cons,
    List.foldl_nil, insertMember_nil, insertMember_of_gt]

/-- The canonical text of a token determines it. -/
theorem render_inj {t t' : Token} :
    t.toJson.normalize.render = t'.toJson.normalize.render ↔ t = t' := by
  obtain ⟨data, signature⟩ := t
  obtain ⟨data', signature'⟩ := t'
  rw [normalize_toJson, normalize_toJson]
  simp only [render, renderMembers, List.cons.injEq, true_and, List.append_cancel_left_eq,
    TokenData.render_append_inj, quote_append_inj, mk.injEq, and_true]

/-- The canonical bytes of a token are those of its canonical text. -/
theorem canonicalBytes_eq_flatMap (t : Token) :
    t.canonicalBytes = t.toJson.normalize.render.flatMap String.utf8EncodeChar :=
  Text.bytes_ofList _

/-- Whole tokens are told apart by their canonical bytes. -/
theorem canonicalBytes_inj {t t' : Token} : t.canonicalBytes = t'.canonicalBytes ↔ t = t' := by
  have hbytes := Text.bytes_inj (s := t.toJson.canonical) (t := t'.toJson.canonical)
  refine hbytes.trans ?_
  rw [canonical, canonical, String.ofList_inj, render_inj]

end Token

/-! ## Reading back -/

/-- The timestamps of a token fit 64 signed bits. -/
def TokenData.Fits (d : TokenData) : Prop :=
  IsInteger64 d.tokenTimestamp ∧ IsInteger64 d.documentCreationTimestamp

/-- Token data whose times fit is read back from its canonical order. -/
theorem TokenData.ofJson?_normalize {d : TokenData} (h : d.Fits) :
    ofJson? d.toJson.normalize = some d := by
  rw [normalize_toJson]
  simp [ofJson?, fields?, occurrences, lookup, required?, string?, integer64?_ofInt h.1,
    integer64?_ofInt h.2, AdditionalTokenData.ofJson?_normalize]

/-- A token whose times fit is read back from its canonical order. -/
theorem Token.ofJson?_normalize {t : Token} (h : t.data.Fits) : ofJson? t.toJson.normalize = some t := by
  rw [normalize_toJson]
  simp [ofJson?, fields?, occurrences, lookup, required?, string?, TokenData.ofJson?_normalize h]

/-- A token whose times fit is an object of three levels without fractions. -/
theorem Token.within_toJson {t : Token} (h : t.data.Fits) :
    Within JsonNumber.IsInteger 3 t.toJson := by
  refine .object ?_
  simp only [List.forall_mem_cons, List.not_mem_nil, false_implies, implies_true, and_true]
  refine ⟨.object ?_, .string _⟩
  simp only [List.forall_mem_cons, List.not_mem_nil, false_implies, implies_true, and_true]
  refine ⟨.string _, .string _, within_ofInt h.1, within_ofInt h.2, .string _, .object ?_⟩
  simp only [List.forall_mem_cons, List.not_mem_nil, false_implies, implies_true, and_true]
  exact ⟨.string _, .string _, .string _, .string _⟩

/-- Everything that is written of the data is kept. -/
theorem AdditionalTokenData.leaves_normalize (d : AdditionalTokenData) :
    form.Leaves d.toJson.normalize d.toJson.normalize.lexemes := by
  rw [normalize_toJson]
  refine Form.leaves_record_of_forall ?_ ⟨by simp, by simp, by simp [Form.needed]⟩
  simp [Form.KeepsMember, Form.needed]

/-- Everything that is written of the signed part is kept. -/
theorem TokenData.leaves_normalize {d : TokenData} (h : d.Fits) :
    form.Leaves d.toJson.normalize d.toJson.normalize.lexemes := by
  have htoken := Form.leaves_anything (within_ofInt (d := 0) h.1)
  have hcreation := Form.leaves_anything (within_ofInt (d := 0) h.2)
  have hadditional := d.additionalData.leaves_normalize
  rw [normalize_toJson]
  refine Form.leaves_record_of_forall ?_ ⟨by simp, by simp, by simp [Form.needed]⟩
  simp [Form.KeepsMember, Form.needed, htoken, hcreation, hadditional]

/-- Everything that is written of a token is kept. -/
theorem Token.leaves_normalize {t : Token} (h : t.data.Fits) :
    form.Leaves t.toJson.normalize t.toJson.normalize.lexemes := by
  have hdata := TokenData.leaves_normalize h
  rw [normalize_toJson]
  refine Form.leaves_record_of_forall ?_ ⟨by simp, by simp, by simp [Form.needed]⟩
  simp [Form.KeepsMember, Form.needed, hdata]

/-- Timestamps that were read from a text fit. -/
theorem TokenData.fits_of_ofJson? {j : Json} {n : Nat} {d : TokenData}
    (hj : Within JsonNumber.InRange n j) (h : ofJson? j = some d) : d.Fits := by
  unfold ofJson? at h
  obtain ⟨fields, hfields, h⟩ := Option.bind_eq_some_iff.1 h
  obtain ⟨e, hparts⟩ := hj.of_fields? hfields
  split at h
  case h_1 =>
    simp only [Option.bind_eq_bind, Option.bind_eq_some_iff, Option.pure_def,
      required?_eq_some_iff] at h
    obtain ⟨_, -, _, -, tokenTime, ⟨v, rfl, hv⟩, creationTime, ⟨w, rfl, hw⟩, _, -, _, -, hd⟩ := h
    obtain rfl := Option.some_inj.1 hd
    exact ⟨isInteger64_of_integer64? (hparts v (by simp)) hv,
      isInteger64_of_integer64? (hparts w (by simp)) hw⟩
  case h_2 => cases h

/-- The times of a token that is read fit. -/
theorem Token.fits_of_ofJson? {j : Json} {n : Nat} {t : Token}
    (hj : Within JsonNumber.InRange n j) (h : ofJson? j = some t) : t.data.Fits := by
  unfold ofJson? at h
  obtain ⟨fields, hfields, h⟩ := Option.bind_eq_some_iff.1 h
  obtain ⟨e, hparts⟩ := hj.of_fields? hfields
  split at h
  case h_1 =>
    simp only [Option.bind_eq_bind, Option.bind_eq_some_iff, Option.pure_def,
      required?_eq_some_iff] at h
    obtain ⟨data, ⟨v, rfl, hv⟩, _, -, ht⟩ := h
    obtain rfl := Option.some_inj.1 ht
    exact TokenData.fits_of_ofJson? (hparts v (by simp)) hv
  case h_2 => cases h

namespace Token

/-- The times of a token that is read from a text fit. -/
theorem fits_of_ofText? {text : String} {t : Token} (h : ofText? text = some t) : t.data.Fits := by
  obtain ⟨j, hj, ht⟩ := Option.bind_eq_some_iff.1 h
  exact fits_of_ofJson? (readAs?_within hj) ht

/-- The canonical text of a token is in canonical form. -/
theorem isCanonical {t : Token} (h : t.data.Fits) :
    IsCanonical t.toJson.canonical t.toJson.normalize :=
  isCanonical_canonical ((within_toJson h).mono (by decide))

/-- The canonical text of a token is a text of this token. -/
theorem ofText?_canonical {t : Token} (h : t.data.Fits) : ofText? t.toJson.canonical = some t := by
  have hwithin := (within_toJson h).normalize
  rw [ofText?, readText?, canonical, readAs?_render hwithin (hwithin.mono (by decide)) (leaves_normalize h),
    Option.bind_some, ofJson?_normalize h]

/-- The canonical form binds every field. Tokens, and the data of tokens, have equal canonical bytes
only when they are equal. Whatever text a token was read from, there is one text in canonical form,
itself a text of the token, whose bytes are the canonical bytes of all texts of this token and of no
other text. -/
theorem canonical_form_binds :
    (∀ t t' : Token, t.canonicalBytes = t'.canonicalBytes ↔ t = t') ∧
    (∀ d d' : TokenData, d.canonicalBytes = d'.canonicalBytes ↔ d = d') ∧
    ∀ text t, ofText? text = some t → ∃ canonical v, IsCanonical canonical v ∧
      ofText? canonical = some t ∧
      ∀ text' t', ofText? text' = some t' → (t'.canonicalBytes = Text.bytes canonical ↔ t' = t) := by
  refine ⟨fun t t' => canonicalBytes_inj, fun d d' => TokenData.canonicalBytes_inj,
    fun text t ht => ?_⟩
  have hfits := fits_of_ofText? ht
  exact ⟨t.toJson.canonical, t.toJson.normalize, isCanonical hfits, ofText?_canonical hfits,
    fun text' t' _ => canonicalBytes_inj⟩

end Token

end ProvenanceTrail
