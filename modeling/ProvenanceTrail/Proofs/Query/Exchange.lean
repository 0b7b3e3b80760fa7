import ProvenanceTrail.Proofs.Graph.Exchange
import ProvenanceTrail.Query.Basic
import ProvenanceTrail.Search.Item

/-!
# The wire format

What services and searches exchange is read from what was written of it: the items of a search and the
answers to queries, and with them nodes, bundles, tokens and connectors (`wire_format_round_trips`).
-/

namespace ProvenanceTrail

open Json JsonNumber

/-! ## Items of a search -/

/-- The outcome of a check is read back. -/
theorem CheckOutcome.ofJson?_toJson (o : CheckOutcome) : ofJson? o.toJson = some o := by
  simp [ofJson?, toJson, fields?, occurrences, lookup, required?, string?, bool?]

/-- The text of a check's outcome is left as it is. -/
theorem CheckOutcome.leaves_toJson (o : CheckOutcome) : form.Leaves o.toJson o.toJson.lexemes := by
  refine Form.leaves_record_of_forall ?_ ⟨by simp, by simp, by simp [Form.needed]⟩
  simp [Form.KeepsMember, Form.needed]

/-- The outcome of a check is an object without fractions. -/
theorem CheckOutcome.within_toJson (o : CheckOutcome) {d : Nat} : Within IsInteger (d + 1) o.toJson := by
  simp [toJson, within_object_iff]

namespace SearchItem

/-- An item is read back. -/
theorem ofJson?_toJson (i : SearchItem) : ofJson? i.toJson = some i := by
  obtain ⟨bundle, entry, metaBundle, hint, digest, integrity, validity⟩ := i
  have hfields : (toJson ⟨bundle, entry, metaBundle, hint, digest, integrity, validity⟩).fields?
      ["bundleId", "entryNodeId", "metaBundleId", "serviceHint", "expectedDigest", "pathIntegrity",
        "pathValidity"] =
      some [some bundle.toJson, some entry.toJson, metaBundle.map QualifiedName.toJson, hint.map .string,
        digest.map .string, some (.bool integrity), some (.array (validity.map CheckOutcome.toJson))] := by
    cases metaBundle <;> cases hint <;> cases digest <;>
      simp [toJson, fields?, occurrences, lookup, memberIfSome]
  have hname := optional?_write QualifiedName.ofJson?_toJson rfl
  have htext := @optional?_write _ string? string (fun _ => rfl) rfl
  rw [ofJson?, hfields]
  simp [required?, QualifiedName.ofJson?_toJson, hname, htext, bool?, list?_map CheckOutcome.ofJson?_toJson]

/-- The text of an item is left as it is. -/
theorem leaves_toJson (i : SearchItem) : form.Leaves i.toJson i.toJson.lexemes := by
  obtain ⟨bundle, entry, metaBundle, hint, digest, integrity, validity⟩ := i
  have hname (n : QualifiedName) : Form.Leaves (.optional QualifiedName.form) n.toJson n.toJson.lexemes :=
    n.leaves_toJson.optional (by simp [QualifiedName.form]) (by simp [QualifiedName.form])
      (by simp [QualifiedName.toJson])
  have htext (s : String) : Form.Leaves (.optional .text) (.string s) (Json.string s).lexemes :=
    (Form.leaves_text s).optional (by simp) (by simp) (by simp)
  have hvalidity := Form.leaves_list_map (by simp [CheckOutcome.form]) (by simp [CheckOutcome.form])
    CheckOutcome.leaves_toJson validity
  refine Form.leaves_record_of_forall ?_ ?_
  · cases metaBundle <;> cases hint <;> cases digest <;>
      simp [memberIfSome, Form.KeepsMember, Form.needed, Form.spare, QualifiedName.leaves_toJson, hname, htext,
        hvalidity]
  · constructor <;> cases metaBundle <;> cases hint <;> cases digest <;>
      simp [memberIfSome, Form.needed, Form.spare]

/-- An item is within three levels. -/
theorem within_toJson (i : SearchItem) {d : Nat} : Within IsInteger (d + 3) i.toJson := by
  have hvalidity : Within IsInteger (d + 2) (.array (i.pathValidity.map CheckOutcome.toJson)) :=
    within_array_map (fun o => o.within_toJson) _
  have hmember {α : Type} {write : α → Json} (hwrite : ∀ a, Within IsInteger (d + 2) (write a))
      (name : String) (o : Option α) : ∀ m ∈ memberIfSome name write o, Within IsInteger (d + 2) m.2 := by
    cases o <;> simp [memberIfSome, hwrite]
  refine .object fun m hm => ?_
  simp only [List.mem_append, or_assoc] at hm
  rcases hm with hm | hm | hm | hm | hm
  · revert m
    simp [QualifiedName.within_toJson]
  · exact hmember (fun n => n.within_toJson) _ _ m hm
  · exact hmember Within.string _ _ m hm
  · exact hmember Within.string _ _ m hm
  · revert m
    simp [hvalidity]

end SearchItem

/-! ## Answers -/

namespace SubgraphDocument

/-- A subgraph read from either medium is read again from its text. -/
theorem readsAs (m : Medium) : ReadsAs (read? m) (read? .text) toJson := by
  intro j d h
  unfold read? at h
  obtain ⟨fields, -, h⟩ := Option.bind_eq_some_iff.1 h
  split at h
  case h_2 => cases h
  case h_1 =>
    simp only [Option.bind_eq_bind, Option.bind_eq_some_iff, Option.pure_def, Option.some.injEq] at h
    obtain ⟨nodes, hnodes, edges, -, rfl⟩ := h
    have hread : list? (Node.read? .text) (.array (nodes.map Node.toJson)) = some nodes :=
      (Node.readsAs m).list.required hnodes
    have hedges : list? (EdgeDocument.read? .text) (.array (edges.map EdgeDocument.toJson)) = some edges :=
      list?_map EdgeDocument.ofJson?_toJson edges
    simp [read?, toJson, fields?, occurrences, lookup, required?, hread, hedges]

/-- The text of a subgraph is left as it is. -/
theorem leaves_toJson (d : SubgraphDocument) : form.Leaves d.toJson d.toJson.lexemes := by
  have hnodes := Form.leaves_list_map (by simp [Node.form]) (by simp [Node.form]) Node.leaves_toJson d.nodes
  have hedges := Form.leaves_list_map (by simp [EdgeDocument.form]) (by simp [EdgeDocument.form])
    EdgeDocument.leaves_toJson d.edges
  refine Form.leaves_record_of_forall ?_ ⟨by simp, by simp, by simp [Form.needed]⟩
  simp [Form.KeepsMember, Form.needed, hnodes, hedges]

/-- A subgraph is within seven levels. -/
theorem within_toJson (d : SubgraphDocument) {n : Nat} : Within IsInteger (n + 7) d.toJson := by
  have hnodes : Within IsInteger (n + 6) (.array (d.nodes.map Node.toJson)) :=
    within_array_map (fun n => n.within_toJson) _
  have hedges : Within IsInteger (n + 6) (.array (d.edges.map EdgeDocument.toJson)) :=
    within_array_map (fun e => e.within_toJson) _
  simp [toJson, within_object_iff, hnodes, hedges]

end SubgraphDocument

/-- A type of query is read back. -/
theorem QueryType.ofJson?_toJson (t : QueryType) : ofJson? t.toJson = some t := by
  cases t <;> rfl

/-- The text of a query's type is left as it is. -/
theorem QueryType.leaves_toJson (t : QueryType) : form.Leaves t.toJson t.toJson.lexemes :=
  Form.leaves_word (by cases t <;> simp [all, name])

namespace QueryResult

/-- The type is written in front of the value. -/
theorem split?_object (t : QueryType) (v : Json) :
    split? (.object [("type", t.toJson), ("value", v)]) = some (t, some v) ∧
      medium (.object [("type", t.toJson), ("value", v)]) = .text := by
  constructor
  · simp [split?, fields?, occurrences, lookup, required?, QueryType.ofJson?_toJson]
  · simp [medium, List.idxOf, List.findIdx, List.findIdx.go]

/-- A result read from either medium is read back. -/
theorem ofJson?_toJson {m : Medium} {t : QueryType} {field : Option Json} {r : QueryResult}
    (h : ofValue? m t field = some r) : ofJson? r.toJson = some r := by
  obtain ⟨hsplit, hmedium⟩ := split?_object r.type r.valueToJson
  rw [toJson, ofJson?, hsplit, hmedium]
  -- an answer is written with the kind that it was read as
  cases t with
  | nodeIds =>
    obtain ⟨names, -, rfl⟩ := Option.map_eq_some_iff.1 h
    simp [ofValue?, type, valueToJson, required?, list?_map QualifiedName.ofJson?_toJson]
  | nodes =>
    obtain ⟨nodes, hnodes, rfl⟩ := Option.map_eq_some_iff.1 h
    have hread : list? (Node.read? .text) (.array (nodes.map Node.toJson)) = some nodes :=
      (Node.readsAs m).list.required hnodes
    simp [ofValue?, type, valueToJson, required?, hread]
  | subgraphs =>
    obtain ⟨found, hfound, rfl⟩ := Option.map_eq_some_iff.1 h
    simp [ofValue?, type, valueToJson, required?, (SubgraphDocument.readsAs m).list.required hfound]
  | connectors =>
    obtain ⟨found, -, rfl⟩ := Option.map_eq_some_iff.1 h
    simp [ofValue?, type, valueToJson, required?, list?_map Connector.ofJson?_toJson]
  | testFits =>
    obtain ⟨fits, -, rfl⟩ := Option.map_eq_some_iff.1 h
    rfl

/-- Results are read back. -/
theorem readsBack : ReadsBack ofJson? toJson := by
  intro j r h
  obtain ⟨⟨t, field⟩, -, h⟩ := Option.bind_eq_some_iff.1 h
  exact ofJson?_toJson h

/-- The text of a result's value is left as it is. -/
theorem leaves_valueToJson (r : QueryResult) :
    (valueForm .text r.type).Leaves r.valueToJson r.valueToJson.lexemes := by
  cases r with
  | nodeIds names =>
    exact Form.leaves_list_map (by simp [QualifiedName.form]) (by simp [QualifiedName.form])
      QualifiedName.leaves_toJson names
  | nodes nodes => exact Form.leaves_list_map (by simp [Node.form]) (by simp [Node.form]) Node.leaves_toJson nodes
  | subgraphs found =>
    exact Form.leaves_list_map (by simp [SubgraphDocument.form]) (by simp [SubgraphDocument.form])
      SubgraphDocument.leaves_toJson found
  | connectors found =>
    exact Form.leaves_list_map (by simp [Connector.form]) (by simp [Connector.form]) Connector.leaves_toJson found
  | testFits fits => exact Form.leaves_flag fits

/-- What is kept of an answer follows from what is kept of its value. -/
theorem leaves_toJson {value : Form} {w : Json} (r : QueryResult) (h : value.Leaves r.valueToJson w.lexemes) :
    (form value).Leaves r.toJson (Json.object [("type", r.type.toJson), ("value", w)]).lexemes := by
  let formOf (key : String) : Form := if key = "type" then QueryType.form else value
  let kept (m : String × Json) : Json := if m.1 = "type" then m.2 else w
  have hfields : ∀ m ∈ [("type", r.type.toJson), ("value", r.valueToJson)],
      Form.HasField [Form.needed "type" QueryType.form, Form.needed "value" value] m.1 (formOf m.1) := by
    simp [Form.HasField, Form.needed, formOf]
  have hleaves : ∀ m ∈ [("type", r.type.toJson), ("value", r.valueToJson)],
      (formOf m.1).Leaves m.2 (kept m).lexemes := by
    simp [formOf, kept, h, r.type.leaves_toJson]
  exact Form.leaves_record hfields hleaves ⟨by simp, by simp, by simp [Form.needed]⟩

/-- A result is within nine levels. -/
theorem within_toJson (r : QueryResult) {d : Nat} : Within IsInteger (d + 9) r.toJson := by
  have hvalue : Within IsInteger (d + 8) r.valueToJson := by
    cases r with
    | nodeIds names => exact within_array_map (fun n => n.within_toJson) names
    | nodes nodes => exact within_array_map (fun n => n.within_toJson) nodes
    | subgraphs found => exact within_array_map (fun s => s.within_toJson) found
    | connectors found => exact within_array_map (fun c => c.within_toJson) found
    | testFits fits => exact .bool fits
  simp [toJson, within_object_iff, QueryType.toJson, hvalue]

end QueryResult

/-- An answer that was read from a text is read again from its own: first without the value, to see what it is,
and then with it. -/
theorem QueryResult.ofText?_writeText {text : String} {r : QueryResult} (h : ofText? text = some r) :
    ofText? (writeText toJson r) = some r := by
  obtain ⟨j, hj⟩ : ∃ j, ofJson? j = some r := by
    obtain ⟨_, -, h⟩ := Option.bind_eq_some_iff.1 h
    obtain ⟨_, -, h⟩ := Option.bind_eq_some_iff.1 h
    obtain ⟨j, -, h⟩ := Option.bind_eq_some_iff.1 h
    exact ⟨j, h⟩
  have hwithin : Within IsInteger maxDepth r.toJson := r.within_toJson
  have hvalue : Within IsInteger (maxDepth - 1) r.valueToJson :=
    within_object_iff.1 hwithin ("value", r.valueToJson) (by simp)
  have houtline : Within IsInteger maxDepth (.object [("type", r.type.toJson), ("value", .null)]) := by
    simp [maxDepth, within_object_iff, QueryType.toJson, Within.null]
  obtain ⟨hsplit, hmedium⟩ := split?_object r.type .null
  rw [ofText?, writeText, readAs?_render hwithin houtline (r.leaves_toJson (Form.leaves_skipped hvalue))]
  simp only [Option.bind_eq_bind, Option.bind_some, hsplit, hmedium]
  rw [readAs?_render hwithin hwithin (r.leaves_toJson r.leaves_valueToJson), Option.bind_some]
  exact readsBack j r hj

/-! ## The wire format -/

/-- The wire format round-trips. A node, bundle, token, connector, item of a search or answer that was read
from a value or from a text is read again, as the same, from the value or the text that is written of it,
and is then written in the same way. Timestamps are read by the lenient grammar, and one that was read is
written as its only text in the written form, with the shortest exact fraction of 0, 3, 6 or 9 digits. -/
theorem wire_format_round_trips :
    RoundTrips Node.ofJson? (readText? Node.form Node.ofJson?) Node.toJson ∧
    RoundTrips Bundle.ofJson? (readText? BundleDocument.form Bundle.ofJson?) Bundle.toJson ∧
    RoundTrips Token.ofJson? Token.ofText? Token.toJson ∧
    RoundTrips Connector.ofJson? (readText? Connector.form Connector.ofJson?) Connector.toJson ∧
    RoundTrips SearchItem.ofJson? (readText? SearchItem.form SearchItem.ofJson?) SearchItem.toJson ∧
    RoundTrips QueryResult.ofJson? QueryResult.ofText? QueryResult.toJson ∧
    (∀ s t, Timestamp.ofText? s = some t ↔
      ∃ p, Timestamp.Grammar.lenient.Spells s.toList p ∧ p.timestamp? = some t) ∧
    (∀ s t, Timestamp.ofText? s = some t → Timestamp.ofText? t.toText = some t ∧
      ∀ w, Timestamp.Grammar.written.Spells w.toList t.parts ↔ w = t.toText) := by
  refine ⟨?_, ?_, ?_, ?_, ?_, ?_, fun s t => Timestamp.ofText?_eq_some_iff,
    fun s t h => ⟨Timestamp.ofText?_toText h, fun w => Timestamp.spells_written_iff h⟩⟩
  · exact ReadsBack.roundTrips (Node.readsAs .text) (fun _ _ => Node.within_toJson _)
      fun _ _ => Node.leaves_toJson _
  · exact Bundle.readsBack.roundTrips (fun _ _ => BundleDocument.within_toJson _)
      fun _ _ => BundleDocument.leaves_toJson _
  · exact Token.readsBack.roundTrips
      (fun hv ht => (Token.within_toJson (Token.fits_of_ofJson? hv ht)).mono (by decide))
      fun hv ht => Token.leaves_toJson (Token.fits_of_ofJson? hv ht)
  · exact ReadsBack.roundTrips (fun _ c _ => c.ofJson?_toJson) (fun _ _ => Connector.within_toJson _)
      fun _ _ => Connector.leaves_toJson _
  · exact ReadsBack.roundTrips (fun _ i _ => i.ofJson?_toJson) (fun _ _ => SearchItem.within_toJson _)
      fun _ _ => SearchItem.leaves_toJson _
  · exact .of_text QueryResult.readsBack fun _ _ => QueryResult.ofText?_writeText

namespace Sample

/-- A node as others may write it: names as arrays, an attribute value as an array and another one with its
type at the end, and a leap second. -/
def nodeDocument : Json :=
  .object [("kind", .string "PROV_ENTITY"), ("id", .array [.string "http://a/", .string "n"]),
    ("attributes", .object [("http://u", .array
      [.array [.string "langString", .string "x", .string "en"],
        .object [("value", .string "2024-02-29t23:59:60.12+01:00"), ("type", .string "timestamp")]])])]

/-- A bundle of this node, with an edge from it to itself. -/
def bundleDocument : Json :=
  .array [.array [.string "http://a/", .string "b"], .array [nodeDocument],
    .array [.array [.array [.string "http://a/", .string "n"], .array [.string "http://a/", .string "n"],
      .array [.object [("PROV_USAGE", .null)]]]]]

/-- A token with fields in the order in which they are declared. -/
def tokenDocument : Json :=
  .array [.array [.string "ORG", .string "TP", .number (.negative 1), .number (.natural 2), .string "d",
    .array [.string "b", .string "SHA256", .string "http://tp", .string "c"]], .string "s"]

/-- The text of a connector with a member that has no value and is skipped. -/
def connectorText : String :=
  "\x7b\"id\":[\"http://a/\",\"c\"],\"more\":[1e999,\"\\ud800\"],\"referencedConnectorId\":[\"http://b/\",\"d\"]\x7d"

/-- An item of a search that leaves out what it may. -/
def itemDocument : Json :=
  .object [("pathValidity", .array [.array [.string "C0", .bool true]]), ("pathIntegrity", .bool false),
    ("entryNodeId", .array [.string "http://b/", .string "d"]),
    ("bundleId", .array [.string "http://b/", .string "b"])]

/-- An answer with the value in front of its type, where types of attribute values may be numbers. -/
def answerDocument : Json :=
  .object [("value", .array [.array [.array [.string "http://a/", .string "n"], .object [("Agent", .object [])],
    .object [("http://u", .array [.object [("type", .number (.natural 0)), ("value", .string "x")]])]]]),
    ("type", .string "NODES")]

/-- A document of each type is read, and what was read is read again from its own text. -/
theorem documents_round_trip :
    (∃ n, readText? Node.form Node.ofJson? (writeText id nodeDocument) = some n ∧
      readText? Node.form Node.ofJson? (writeText Node.toJson n) = some n) ∧
    (∃ b, readText? BundleDocument.form Bundle.ofJson? (writeText id bundleDocument) = some b ∧
      readText? BundleDocument.form Bundle.ofJson? (writeText Bundle.toJson b) = some b) ∧
    (∃ t, Token.ofText? (writeText id tokenDocument) = some t ∧
      Token.ofText? (writeText Token.toJson t) = some t) ∧
    (∃ c, readText? Connector.form Connector.ofJson? connectorText = some c ∧
      readText? Connector.form Connector.ofJson? (writeText Connector.toJson c) = some c) ∧
    (∃ i, readText? SearchItem.form SearchItem.ofJson? (writeText id itemDocument) = some i ∧
      readText? SearchItem.form SearchItem.ofJson? (writeText SearchItem.toJson i) = some i) ∧
    ∃ r, QueryResult.ofText? (writeText id answerDocument) = some r ∧
      QueryResult.ofText? (writeText QueryResult.toJson r) = some r := by
  obtain ⟨hnode, hbundle, htoken, hconnector, hitem, hanswer, -⟩ := wire_format_round_trips
  obtain ⟨n, hn⟩ := Option.isSome_iff_exists.1
    (show (readText? Node.form Node.ofJson? (writeText id nodeDocument)).isSome by decide +kernel)
  obtain ⟨b, hb⟩ := Option.isSome_iff_exists.1
    (show (readText? BundleDocument.form Bundle.ofJson? (writeText id bundleDocument)).isSome by decide +kernel)
  obtain ⟨t, ht⟩ := Option.isSome_iff_exists.1
    (show (Token.ofText? (writeText id tokenDocument)).isSome by decide +kernel)
  obtain ⟨c, hc⟩ := Option.isSome_iff_exists.1
    (show (readText? Connector.form Connector.ofJson? connectorText).isSome by decide +kernel)
  obtain ⟨i, hi⟩ := Option.isSome_iff_exists.1
    (show (readText? SearchItem.form SearchItem.ofJson? (writeText id itemDocument)).isSome by decide +kernel)
  obtain ⟨r, hr⟩ := Option.isSome_iff_exists.1
    (show (QueryResult.ofText? (writeText id answerDocument)).isSome by decide +kernel)
  exact ⟨⟨n, hn, hnode.text _ _ hn⟩, ⟨b, hb, hbundle.text _ _ hb⟩, ⟨t, ht, htoken.text _ _ ht⟩,
    ⟨c, hc, hconnector.text _ _ hc⟩, ⟨i, hi, hitem.text _ _ hi⟩, ⟨r, hr, hanswer.text _ _ hr⟩⟩

end Sample

end ProvenanceTrail
