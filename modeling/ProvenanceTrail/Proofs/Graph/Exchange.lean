import ProvenanceTrail.Graph.Connector
import ProvenanceTrail.Proofs.Graph.Loading
import ProvenanceTrail.Proofs.Graph.Token
import ProvenanceTrail.Proofs.Json.Exchange
import ProvenanceTrail.Proofs.Time.Writing

/-!
# Bundles, tokens and connectors are read as they were written

Names, kinds, edges and connectors are read from what is written of them whatever they are. A timestamp, an
attribute list, a bundle and a token are so only when they come from a document: its timestamps are valid,
its attributes are sorted (`Node.readAttributes?_eq_some`), its edges have their ends among the nodes
(`Bundle.ofDocument_eq_ok_iff`), and its integers fit.
-/

namespace ProvenanceTrail

open Json JsonNumber

/-! ## Names and kinds -/

/-- A name is read from what is written of it. -/
theorem QualifiedName.ofJson?_toJson (n : QualifiedName) : ofJson? n.toJson = some n := by
  simp [ofJson?, toJson, fields?, occurrences, lookup, required?, string?]

/-- Nothing of a written name is skipped. -/
theorem QualifiedName.leaves_toJson (n : QualifiedName) : form.Leaves n.toJson n.toJson.lexemes := by
  refine Form.leaves_record_of_forall ?_ ⟨by simp, by simp, by simp [Form.needed]⟩
  simp [Form.KeepsMember, Form.needed]

/-- A written name is nested one level deep. -/
theorem QualifiedName.within_toJson (n : QualifiedName) {d : Nat} : Within IsInteger (d + 1) n.toJson := by
  simp [toJson, within_object_iff]

/-- A kind of nodes is read from its word. -/
theorem NodeKind.read?_toJson (k : NodeKind) : read? .text k.toJson = some k := by
  cases k <;> rfl

/-- A relation is read from its word. -/
theorem RelationKind.read?_toJson (k : RelationKind) : read? .text k.toJson = some k := by
  cases k <;> rfl

/-- Nothing of a written kind is skipped. -/
theorem NodeKind.leaves_toJson (k : NodeKind) : form.Leaves k.toJson k.toJson.lexemes :=
  Form.leaves_word (by cases k <;> simp [name, spellings])

/-- Nothing of a written relation is skipped. -/
theorem RelationKind.leaves_toJson (k : RelationKind) : form.Leaves k.toJson k.toJson.lexemes :=
  Form.leaves_word (by cases k <;> simp [name, spellings, words, all])

/-! ## Nodes -/

namespace AttributeValue

/-- A timestamp is read from a text. -/
theorem exists_of_ofFields?_timestamp {tag : Tag} {fields : List (Option Json)} {t : Timestamp}
    (h : ofFields? tag fields = some (.timestamp t)) : ∃ s, Timestamp.ofText? s = some t := by
  unfold ofFields? at h
  split at h
  case h_1 | h_3 => simp at h
  case h_2 =>
    obtain ⟨text, -, h⟩ := Option.bind_eq_some_iff.1 h
    simp at h
  case h_4 =>
    obtain ⟨text, -, h⟩ := Option.bind_eq_some_iff.1 h
    obtain ⟨t', ht, heq⟩ := Option.map_eq_some_iff.1 h
    obtain rfl := AttributeValue.timestamp.inj heq
    exact ⟨text, ht⟩
  case h_5 => cases h

/-- A value that was read in some medium is read from a text of it. -/
theorem readsAs (m : Medium) : ReadsAs (read? m) (read? .text) toJson := by
  intro j v h
  have hwords : (Text.meaning? Tag.words "string" = some .string ∧
      Text.meaning? Tag.words "langString" = some .langString) ∧
      Text.meaning? Tag.words "qualifiedName" = some .qualifiedName ∧
      Text.meaning? Tag.words "timestamp" = some .timestamp := ⟨⟨rfl, rfl⟩, rfl, rfl⟩
  cases v with
  | string text =>
    simp [read?, split?, Tag.read?, Tag.fields, ofFields?, hwords, toJson, fields?, occurrences, lookup, required?,
      string?]
  | langString text lang =>
    cases lang <;>
      simp [read?, split?, Tag.read?, Tag.fields, ofFields?, hwords, toJson, fields?, occurrences, lookup,
        required?, optional?, string?, memberIfSome]
  | qualifiedName name =>
    simp [read?, split?, Tag.read?, Tag.fields, ofFields?, hwords, toJson, fields?, occurrences, lookup,
      required?, name.ofJson?_toJson]
  | timestamp time =>
    obtain ⟨_, -, h⟩ := Option.bind_eq_some_iff.1 h
    obtain ⟨_, -, h⟩ := Option.bind_eq_some_iff.1 h
    obtain ⟨_, -, h⟩ := Option.bind_eq_some_iff.1 h
    obtain ⟨s, hs⟩ := exists_of_ofFields?_timestamp h
    simp [read?, split?, Tag.read?, Tag.fields, ofFields?, hwords, toJson, fields?, occurrences, lookup, required?,
      string?, Timestamp.ofText?_toText hs]

/-- A written value is nested at most two levels deep. -/
theorem within_toJson (v : AttributeValue) {d : Nat} : Within IsInteger (d + 2) v.toJson := by
  cases v with
  | string text => simp [toJson, within_object_iff]
  | langString text lang => cases lang <;> simp [toJson, within_object_iff, memberIfSome]
  | qualifiedName name => simp [toJson, within_object_iff, name.within_toJson]
  | timestamp time => simp [toJson, within_object_iff]

end AttributeValue

namespace Node

/-- Attributes that were read have different names, in ascending order, each with a list of values. -/
theorem readAttributes?_eq_some {m : Medium} {j : Json} {attributes : List (String × List AttributeValue)}
    (h : readAttributes? m j = some attributes) :
    (attributes.Pairwise fun a a' => a.1 < a'.1) ∧
      ∀ a ∈ attributes, ∃ v, list? (AttributeValue.read? m) v = some a.2 := by
  unfold readAttributes? at h
  split at h
  case h_2 => cases h
  case h_1 members =>
    obtain ⟨attributes', hmembers, rfl⟩ := Option.map_eq_some_iff.1 h
    refine ⟨pairwise_sortMembers _, fun a ha => ?_⟩
    obtain ⟨m, -, hm⟩ := exists_of_mapM_eq_some hmembers (mem_of_mem_sortMembers ha)
    obtain ⟨values, hvalues, rfl⟩ := Option.map_eq_some_iff.1 hm
    exact ⟨m.2, hvalues⟩

/-- The attributes of a node as they are written. -/
def attributesToJson (attributes : List (String × List AttributeValue)) : Json :=
  .object (attributes.map fun a => (a.1, .array (a.2.map AttributeValue.toJson)))

/-- Attributes that were read in some medium are read from a text of them. -/
theorem attributes_readsAs (m : Medium) :
    ReadsAs (readAttributes? m) (readAttributes? .text) attributesToJson := by
  intro j attributes h
  obtain ⟨hsorted, hvalues⟩ := readAttributes?_eq_some h
  rw [attributesToJson, readAttributes?, mapM_map_eq_some, Option.map_some, sortMembers_eq_self hsorted]
  intro a ha
  obtain ⟨v, hv⟩ := hvalues a ha
  rw [(AttributeValue.readsAs m).list v a.2 hv, Option.map_some]

/-- Written attributes are nested at most four levels deep. -/
theorem within_attributesToJson (attributes : List (String × List AttributeValue)) {d : Nat} :
    Within IsInteger (d + 4) (attributesToJson attributes) := by
  refine .object fun m hm => ?_
  obtain ⟨a, -, rfl⟩ := List.mem_map.1 hm
  exact within_array_map (fun v => v.within_toJson) a.2

/-- A node is written as its id, its kind and its attributes. -/
theorem toJson_eq (n : Node) : n.toJson =
    .object [("id", n.id.toJson), ("kind", n.kind.toJson), ("attributes", attributesToJson n.attributes)] := rfl

/-- A node that was read in some medium is read from a text of it. -/
theorem readsAs (m : Medium) : ReadsAs (read? m) ofJson? toJson := by
  intro j n h
  unfold read? at h
  obtain ⟨fields, -, h⟩ := Option.bind_eq_some_iff.1 h
  split at h
  case h_2 => cases h
  case h_1 id kind attributes =>
    simp only [Option.bind_eq_bind, Option.bind_eq_some_iff, Option.pure_def, Option.some.injEq] at h
    obtain ⟨id', -, kind', -, attributes', hattributes, rfl⟩ := h
    have hread := (attributes_readsAs m).defaulted rfl hattributes
    rw [toJson_eq]
    simp [ofJson?, read?, fields?, occurrences, lookup, required?, defaulted?, id'.ofJson?_toJson,
      kind'.read?_toJson, hread]

/-- Nothing of a written node is skipped. -/
theorem leaves_toJson (n : Node) : form.Leaves n.toJson n.toJson.lexemes := by
  have hvalue (v : AttributeValue) : Form.Leaves .anything v.toJson v.toJson.lexemes :=
    Form.leaves_anything (v.within_toJson (d := 0))
  have hattributes : Form.Leaves (.entries (.list .anything)) (attributesToJson n.attributes)
      (attributesToJson n.attributes).lexemes :=
    Form.leaves_entries (by simp) fun m hm => by
      obtain ⟨a, -, rfl⟩ := List.mem_map.1 hm
      exact Form.leaves_list_map (by simp) (by simp) hvalue a.2
  rw [toJson_eq]
  refine Form.leaves_record_of_forall ?_ ⟨by simp, by simp, by simp [Form.needed, Form.spare]⟩
  simp [Form.KeepsMember, Form.needed, Form.spare, n.id.leaves_toJson, n.kind.leaves_toJson, hattributes]

/-- A written node is nested at most five levels deep. -/
theorem within_toJson (n : Node) {d : Nat} : Within IsInteger (d + 5) n.toJson := by
  rw [toJson_eq, within_object_iff]
  simp [QualifiedName.within_toJson, within_attributesToJson, NodeKind.toJson]

end Node

/-! ## Bundles -/

namespace EdgeDocument

/-- An edge is read from what is written of it. -/
theorem ofJson?_toJson (e : EdgeDocument) : ofJson? e.toJson = some e := by
  simp [ofJson?, read?, toJson, fields?, occurrences, lookup, required?, QualifiedName.ofJson?_toJson,
    list?_map RelationKind.read?_toJson]

/-- Nothing of a written edge is skipped. -/
theorem leaves_toJson (e : EdgeDocument) : form.Leaves e.toJson e.toJson.lexemes := by
  have hrelations := Form.leaves_list_map (by simp [RelationKind.form]) (by simp [RelationKind.form])
    RelationKind.leaves_toJson e.relations
  refine Form.leaves_record_of_forall ?_ ⟨by simp, by simp, by simp [Form.needed]⟩
  simp [Form.KeepsMember, Form.needed, QualifiedName.leaves_toJson, hrelations]

/-- A written edge is nested at most two levels deep. -/
theorem within_toJson (e : EdgeDocument) {d : Nat} : Within IsInteger (d + 2) e.toJson := by
  have hrelations : Within IsInteger (d + 1) (.array (e.relations.map RelationKind.toJson)) :=
    within_array_map (fun k : RelationKind => .string k.name) _
  simp [toJson, within_object_iff, QualifiedName.within_toJson, hrelations]

end EdgeDocument

namespace BundleDocument

/-- A document that was read is read again from what is written of it. -/
theorem readsBack : ReadsBack ofJson? toJson := by
  intro j d h
  unfold ofJson? at h
  obtain ⟨fields, -, h⟩ := Option.bind_eq_some_iff.1 h
  split at h
  case h_2 => cases h
  case h_1 id nodes edges =>
    simp only [Option.bind_eq_bind, Option.bind_eq_some_iff, Option.pure_def, Option.some.injEq] at h
    obtain ⟨id', -, nodes', hnodes, edges', -, rfl⟩ := h
    simp [ofJson?, toJson, fields?, occurrences, lookup, required?, defaulted?, id'.ofJson?_toJson,
      (Node.readsAs .text).list.defaulted rfl hnodes, list?_map EdgeDocument.ofJson?_toJson]

/-- Nothing of a written document is skipped. -/
theorem leaves_toJson (d : BundleDocument) : form.Leaves d.toJson d.toJson.lexemes := by
  have hnodes := Form.leaves_list_map (by simp [Node.form]) (by simp [Node.form]) Node.leaves_toJson d.nodes
  have hedges := Form.leaves_list_map (by simp [EdgeDocument.form]) (by simp [EdgeDocument.form])
    EdgeDocument.leaves_toJson d.edges
  refine Form.leaves_record_of_forall ?_ ⟨by simp, by simp, by simp [Form.needed, Form.spare]⟩
  simp [Form.KeepsMember, Form.needed, Form.spare, QualifiedName.leaves_toJson, hnodes, hedges]

/-- A written document is nested at most seven levels deep. -/
theorem within_toJson (d : BundleDocument) {n : Nat} : Within IsInteger (n + 7) d.toJson := by
  have hnodes : Within IsInteger (n + 6) (.array (d.nodes.map Node.toJson)) :=
    within_array_map (fun n => n.within_toJson) _
  have hedges : Within IsInteger (n + 6) (.array (d.edges.map EdgeDocument.toJson)) :=
    within_array_map (fun e => e.within_toJson) _
  simp [toJson, within_object_iff, QualifiedName.within_toJson, hnodes, hedges]

end BundleDocument

namespace Bundle

/-- A value is read as a bundle just if it is read as the document of this bundle. -/
theorem ofJson?_eq_some_iff {j : Json} {b : Bundle} :
    ofJson? j = some b ↔ BundleDocument.ofJson? j = some b.toDocument := by
  unfold ofJson?
  cases BundleDocument.ofJson? j with
  | none => simp
  | some d =>
    rw [Option.some_inj, @eq_comm _ d, ← ofDocument_eq_ok_iff]
    simp only
    cases ofDocument d <;> simp

/-- A bundle that was read is read again from what is written of it. -/
theorem readsBack : ReadsBack ofJson? toJson := by
  intro j b h
  rw [ofJson?_eq_some_iff] at h ⊢
  exact BundleDocument.readsBack j _ h

end Bundle

/-! ## Tokens -/

/-- What a token says about its bundle is read from what is written of it. -/
theorem AdditionalTokenData.ofJson?_toJson (d : AdditionalTokenData) : ofJson? d.toJson = some d := by
  simp [ofJson?, toJson, fields?, occurrences, lookup, required?, string?]

/-- Data that was read, with timestamps that fit 64 bits, is read again from what is written of it. -/
theorem TokenData.readsBack : ReadsBack ofJson? toJson := by
  intro j d h
  unfold ofJson? at h
  obtain ⟨fields, -, h⟩ := Option.bind_eq_some_iff.1 h
  split at h
  case h_2 => cases h
  case h_1 =>
    simp only [Option.bind_eq_bind, Option.bind_eq_some_iff, Option.pure_def, Option.some.injEq] at h
    obtain ⟨_, -, _, -, tokenTime, htoken, creationTime, hcreation, _, -, _, -, rfl⟩ := h
    simp [ofJson?, toJson, fields?, occurrences, lookup, required?, string?,
      integer64_readsBack.required htoken, integer64_readsBack.required hcreation,
      AdditionalTokenData.ofJson?_toJson]

/-- A token that was read is read again from what is written of it. -/
theorem Token.readsBack : ReadsBack ofJson? toJson := by
  intro j t h
  unfold ofJson? at h
  obtain ⟨fields, -, h⟩ := Option.bind_eq_some_iff.1 h
  split at h
  case h_2 => cases h
  case h_1 =>
    simp only [Option.bind_eq_bind, Option.bind_eq_some_iff, Option.pure_def, Option.some.injEq] at h
    obtain ⟨data, hdata, _, -, rfl⟩ := h
    simp [ofJson?, toJson, fields?, occurrences, lookup, required?, string?,
      TokenData.readsBack.required hdata]

/-- Nothing that is written of what a token says about its bundle is skipped. -/
theorem AdditionalTokenData.leaves_toJson (d : AdditionalTokenData) : form.Leaves d.toJson d.toJson.lexemes := by
  refine Form.leaves_record_of_forall ?_ ⟨by simp, by simp, by simp [Form.needed]⟩
  simp [Form.KeepsMember, Form.needed]

/-- Nothing of written data is skipped, if its timestamps fit 64 bits. -/
theorem TokenData.leaves_toJson {d : TokenData} (h : d.Fits) : form.Leaves d.toJson d.toJson.lexemes := by
  have htoken := Form.leaves_anything (within_ofInt (d := 0) h.1)
  have hcreation := Form.leaves_anything (within_ofInt (d := 0) h.2)
  refine Form.leaves_record_of_forall ?_ ⟨by simp, by simp, by simp [Form.needed]⟩
  simp [Form.KeepsMember, Form.needed, htoken, hcreation, AdditionalTokenData.leaves_toJson]

/-- Nothing of a written token is skipped, if its timestamps fit 64 bits. -/
theorem Token.leaves_toJson {t : Token} (h : t.data.Fits) : form.Leaves t.toJson t.toJson.lexemes := by
  refine Form.leaves_record_of_forall ?_ ⟨by simp, by simp, by simp [Form.needed]⟩
  simp [Form.KeepsMember, Form.needed, TokenData.leaves_toJson h]

/-! ## Connectors -/

namespace Connector

/-- A connector is read from what is written of it. -/
theorem ofJson?_toJson (c : Connector) : ofJson? c.toJson = some c := by
  have hname := optional?_write QualifiedName.ofJson?_toJson rfl
  have htext := @optional?_write _ string? string (fun _ => rfl) rfl
  simp [ofJson?, toJson, fields?, occurrences, lookup, required?, QualifiedName.ofJson?_toJson, hname, htext]

/-- Nothing of a written connector is skipped. -/
theorem leaves_toJson (c : Connector) : form.Leaves c.toJson c.toJson.lexemes := by
  have hname (o : Option QualifiedName) := Form.leaves_ofOption (by simp [QualifiedName.form])
    (by simp [QualifiedName.form]) (by simp [QualifiedName.toJson]) QualifiedName.leaves_toJson o
  have htext (o : Option String) := Form.leaves_ofOption (by simp) (by simp) (by simp) Form.leaves_text o
  refine Form.leaves_record_of_forall ?_ ⟨by simp, by simp, by simp [Form.needed, Form.spare]⟩
  simp [Form.KeepsMember, Form.needed, Form.spare, QualifiedName.leaves_toJson, hname, htext]

/-- A written connector is nested at most two levels deep. -/
theorem within_toJson (c : Connector) {d : Nat} : Within IsInteger (d + 2) c.toJson := by
  have hname (o : Option QualifiedName) : Within IsInteger (d + 1) (ofOption QualifiedName.toJson o) :=
    within_ofOption (fun n => n.within_toJson) o
  have htext (o : Option String) : Within IsInteger (d + 1) (ofOption string o) :=
    within_ofOption Within.string o
  simp [toJson, within_object_iff, QualifiedName.within_toJson, hname, htext]

end Connector

end ProvenanceTrail
