import Mathlib.Data.List.Nodup
import ProvenanceTrail.Proofs.Graph.Steps

/-!
# Loading a bundle

A document is a bundle exactly when its nodes have different ids and each of its edges carries a relation
and joins two of its nodes (`BundleDocument.WellFormed`). Of any other document the first fault is reported
(`BundleDocument.FirstFault`): nodes come before edges, and of an edge its relations before its cause and its
cause before its effect.

Loading neither loses nor adds anything: a document loads as the one bundle that is written as this document
(`Bundle.ofDocument_eq_ok_iff`). What the tables of a bundle say of an id or of an end of an edge is therefore
stated of the document, whose lists they index (`Bundle.Indexes`).
-/

namespace ProvenanceTrail

namespace BundleDocument

/-- The ids of the nodes, in their order. -/
def nodeIds (d : BundleDocument) : List QualifiedName := d.nodes.map Node.id

/-- An edge that a bundle with the nodes of a document can have. -/
structure IsEdge (d : BundleDocument) (e : EdgeDocument) : Prop where
  related : e.relations ≠ []
  cause : e.cause ∈ d.nodeIds
  effect : e.effect ∈ d.nodeIds

/-- A document that is a bundle. -/
structure WellFormed (d : BundleDocument) : Prop where
  distinct : d.nodeIds.Nodup
  edges : ∀ e ∈ d.edges, d.IsEdge e

/-- What is wrong with an edge. A missing relation counts before a missing cause, and that before a missing
effect. -/
inductive EdgeFault (d : BundleDocument) (e : EdgeDocument) : BundleError → Prop
  | relations (h : e.relations = []) : EdgeFault d e (.emptyRelations e.cause e.effect)
  | cause (hrelated : e.relations ≠ []) (h : e.cause ∉ d.nodeIds) :
    EdgeFault d e (.danglingEdge d.id e.cause)
  | effect (hrelated : e.relations ≠ []) (hcause : e.cause ∈ d.nodeIds) (h : e.effect ∉ d.nodeIds) :
    EdgeFault d e (.danglingEdge d.id e.effect)

/-- The first thing that is wrong with a document: the first node whose id an earlier one has; when there
is none, what is wrong with the first faulty edge. -/
inductive FirstFault (d : BundleDocument) : BundleError → Prop
  | node {before after : List Node} {n : Node} (hnodes : d.nodes = before ++ n :: after)
    (distinct : (before.map Node.id).Nodup) (repeated : n.id ∈ before.map Node.id) :
    FirstFault d (.duplicateNode d.id n.id)
  | edge {before after : List EdgeDocument} {e : EdgeDocument} {err : BundleError}
    (distinct : d.nodeIds.Nodup) (hedges : d.edges = before ++ e :: after)
    (sound : ∀ e' ∈ before, d.IsEdge e') (fault : d.EdgeFault e err) : FirstFault d err

/-- A well-formed document has no first fault. -/
theorem WellFormed.not_firstFault {d : BundleDocument} {err : BundleError} (h : d.WellFormed) :
    ¬ d.FirstFault err := by
  intro hfault
  cases hfault with
  | node hnodes _ hrepeated =>
    have hnodup := h.distinct
    rw [nodeIds, hnodes, List.map_append, List.map_cons] at hnodup
    exact (List.nodup_append.1 hnodup).2.2 _ hrepeated _ List.mem_cons_self rfl
  | @edge before after e err distinct hedges sound hfault =>
    have he : d.IsEdge e := h.edges e (by simp [hedges])
    cases hfault with
    | relations h => exact he.related h
    | cause _ h => exact h he.cause
    | effect _ _ h => exact h he.effect

end BundleDocument

/-! ## Nodes -/

namespace NodeTable

variable {nodes : Array Node} {id : QualifiedName} {i : Fin nodes.size}

/-- Entries inserted one by one stand in reverse order in front. -/
theorem entries_foldl_insert {size : Nat} {table : NodeTable size} (l : List (QualifiedName × Fin size)) :
    (l.foldl (fun table entry => table.insert entry.1 entry.2) table).entries = l.reverse ++ table.entries := by
  induction l generalizing table with
  | nil => rfl
  | cons entry l ih =>
    rw [List.foldl_cons, ih, insert, List.reverse_cons, List.append_assoc, List.singleton_append]

/-- A table of nodes has every node under its own id. -/
theorem mem_entries_ofNodes :
    (id, i) ∈ (ofNodes nodes).entries ↔ (nodes.toList.map Node.id)[i.1]? = some id := by
  rw [ofNodes, entries_foldl_insert]
  simp [numbered]

/-- What is found under an id is a node with that id. -/
theorem id_of_get? (h : (ofNodes nodes).get? id = some i) :
    (nodes.toList.map Node.id)[i.1]? = some id := by
  obtain ⟨⟨id', i⟩, hfind, rfl⟩ := Option.map_eq_some_iff.1 h
  obtain rfl : id' = id := by simpa using List.find?_some hfind
  exact mem_entries_ofNodes.1 (List.mem_of_find?_eq_some hfind)

/-- Nothing is found under an id just if no node has it. -/
theorem get?_eq_none_iff :
    (ofNodes nodes).get? id = none ↔ id ∉ nodes.toList.map Node.id := by
  rw [get?, Option.map_eq_none_iff, List.find?_eq_none]
  constructor
  · intro h hmem
    obtain ⟨k, hk⟩ := List.mem_iff_getElem?.1 hmem
    have hlt : k < nodes.size := by simpa using (List.getElem?_eq_some_iff.1 hk).1
    exact h (id, ⟨k, hlt⟩) (mem_entries_ofNodes.2 hk) (by simp)
  · rintro h ⟨id', i⟩ hmem hid
    obtain rfl : id' = id := by simpa using hid
    exact h (List.mem_of_getElem? (mem_entries_ofNodes.1 hmem))

/-- Where no id occurs twice, an id finds its node. -/
theorem get?_eq_some_iff (h : (nodes.toList.map Node.id).Nodup) :
    (ofNodes nodes).get? id = some i ↔ (nodes.toList.map Node.id)[i.1]? = some id := by
  refine ⟨id_of_get?, fun hid => ?_⟩
  have hmem : id ∈ nodes.toList.map Node.id := List.mem_of_getElem? hid
  obtain ⟨j, hj⟩ := Option.ne_none_iff_exists'.1 fun hnone => get?_eq_none_iff.1 hnone hmem
  have hij : j.1 = i.1 := (List.getElem?_inj (by simp) h).1 ((id_of_get? hj).trans hid.symm)
  rw [hj, Fin.ext hij]

/-- Entering nodes fails at the first id that is in the table or was entered before. -/
theorem enterAll_eq_error_iff {size : Nat} {table : NodeTable size} {entries : List (QualifiedName × Fin size)} :
    table.enterAll entries = .error id ↔ ∃ before after, entries.map Prod.fst = before ++ id :: after ∧
      before.Nodup ∧ (∀ m ∈ before, m ∉ table.ids) ∧ (id ∈ table.ids ∨ id ∈ before) := by
  induction entries generalizing table with
  | nil => simp [enterAll]
  | cons entry entries ih =>
    obtain ⟨m, k⟩ := entry
    by_cases hm : m ∈ table.ids
    · rw [enterAll, if_pos (isSome_get?_iff.2 hm)]
      constructor
      · rintro ⟨⟩
        exact ⟨[], entries.map Prod.fst, rfl, List.nodup_nil, by simp, .inl hm⟩
      · rintro ⟨before, after, hsplit, -, hnew, -⟩
        cases before with
        | nil => exact congrArg _ (List.cons.inj hsplit).1
        | cons m' before =>
          obtain ⟨rfl, -⟩ := List.cons.inj hsplit
          exact absurd hm (hnew _ List.mem_cons_self)
    · -- the id is new, and is one of those before any later fault
      have hids : (table.insert m k).ids = m :: table.ids := rfl
      rw [enterAll, if_neg (isSome_get?_iff.not.2 hm), ih, hids, List.map_cons]
      constructor
      · rintro ⟨before, after, hsplit, hnodup, hnew, hid⟩
        refine ⟨m :: before, after, by rw [hsplit, List.cons_append],
          List.nodup_cons.2 ⟨fun h => hnew m h List.mem_cons_self, hnodup⟩,
          List.forall_mem_cons.2 ⟨hm, fun k hk h => hnew k hk (List.mem_cons_of_mem _ h)⟩, ?_⟩
        rcases hid with hid | hid
        · rcases List.mem_cons.1 hid with rfl | hid
          · exact .inr List.mem_cons_self
          · exact .inl hid
        · exact .inr (List.mem_cons_of_mem _ hid)
      · rintro ⟨before, after, hsplit, hnodup, hnew, hid⟩
        cases before with
        | nil =>
          obtain ⟨rfl, -⟩ := List.cons.inj hsplit
          exact absurd (hid.resolve_right List.not_mem_nil) hm
        | cons m' before =>
          obtain ⟨rfl, hrest⟩ := List.cons.inj hsplit
          obtain ⟨hfresh, hnodup⟩ := List.nodup_cons.1 hnodup
          refine ⟨before, after, hrest, hnodup, fun k hk h => ?_, ?_⟩
          · rcases List.mem_cons.1 h with rfl | h
            · exact hfresh hk
            · exact hnew k (List.mem_cons_of_mem _ hk) h
          · rcases hid with hid | hid
            · exact .inl (List.mem_cons_of_mem _ hid)
            · rcases List.mem_cons.1 hid with rfl | hid
              · exact .inl List.mem_cons_self
              · exact .inr hid

end NodeTable

namespace Bundle

open BundleDocument

/-! ## Edges -/

section Edges

variable {d : BundleDocument} {e : EdgeDocument} {err : BundleError}

/-- An edge between nodes, with the ids of its ends. -/
def writeEdge {nodes : Array Node} (e : Edge nodes.size) : EdgeDocument :=
  ⟨nodes[e.cause].id, nodes[e.effect].id, e.relations⟩

/-- Where no id occurs twice, edges are written differently. -/
theorem writeEdge_inj {nodes : Array Node} (h : (nodes.toList.map Node.id).Nodup)
    {e e' : Edge nodes.size} (he : writeEdge e = writeEdge e') : e = e' := by
  obtain ⟨cause, effect, relations, related⟩ := e
  obtain ⟨cause', effect', relations', related'⟩ := e'
  obtain ⟨hcause, heffect, rfl⟩ := EdgeDocument.mk.inj he
  have hinj {i j : Fin nodes.size} (hid : nodes[i].id = nodes[j].id) : i = j :=
    Fin.ext ((List.getElem?_inj (by simp) h).1 (by simpa using hid))
  obtain rfl := hinj hcause
  obtain rfl := hinj heffect
  rfl

/-- An edge is read as the one that is written as this edge. -/
theorem edgeOf_eq_ok_iff (h : d.nodeIds.Nodup) {edge : Edge d.nodes.toArray.size} :
    edgeOf d.id (.ofNodes d.nodes.toArray) e = .ok edge ↔ writeEdge edge = e := by
  have hfind {id : QualifiedName} {i : Fin d.nodes.toArray.size} :
      (NodeTable.ofNodes d.nodes.toArray).get? id = some i ↔ d.nodes.toArray[i].id = id := by
    have hnodup : (d.nodes.toArray.toList.map Node.id).Nodup := h
    have hi : i.1 < d.nodes.toArray.toList.length := i.2
    rw [NodeTable.get?_eq_some_iff hnodup, List.getElem?_map, List.getElem?_eq_getElem hi,
      Option.map_some, Option.some_inj]
    rfl
  constructor
  · intro hok
    unfold edgeOf at hok
    split at hok
    · cases hok
    · split at hok
      · cases hok
      · rename_i cause hcause
        split at hok
        · cases hok
        · rename_i effect heffect
          obtain rfl := Except.ok.inj hok
          exact congrArg₂ (EdgeDocument.mk · · e.relations) (hfind.1 hcause) (hfind.1 heffect)
  · rintro rfl
    have hrelated : (writeEdge edge).relations ≠ [] := edge.related
    rw [edgeOf, dif_neg hrelated, hfind.2 (show _ = (writeEdge edge).cause from rfl),
      hfind.2 (show _ = (writeEdge edge).effect from rfl)]
    rfl

/-- An edge fails to load just for its fault. -/
theorem edgeOf_eq_error_iff : edgeOf d.id (.ofNodes d.nodes.toArray) e = .error err ↔ d.EdgeFault e err := by
  have hnone {id : QualifiedName} : (NodeTable.ofNodes d.nodes.toArray).get? id = none ↔ id ∉ d.nodeIds :=
    NodeTable.get?_eq_none_iff
  have hsome {id : QualifiedName} {i : Fin d.nodes.toArray.size}
      (h : (NodeTable.ofNodes d.nodes.toArray).get? id = some i) : id ∈ d.nodeIds := by
    by_contra hmem
    rw [hnone.2 hmem] at h
    cases h
  constructor
  · intro herr
    unfold edgeOf at herr
    split at herr
    case isTrue hempty =>
      obtain rfl := Except.error.inj herr
      exact .relations hempty
    case isFalse hrelated =>
      split at herr
      case h_1 hcause =>
        obtain rfl := Except.error.inj herr
        exact .cause hrelated (hnone.1 hcause)
      case h_2 cause hcause =>
        split at herr
        case h_1 heffect =>
          obtain rfl := Except.error.inj herr
          exact .effect hrelated (hsome hcause) (hnone.1 heffect)
        case h_2 => cases herr
  · intro hfault
    cases hfault with
    | relations h => rw [edgeOf, dif_pos h]
    | cause hrelated h => rw [edgeOf, dif_neg hrelated, hnone.2 h]
    | effect hrelated hcause h =>
      obtain ⟨cause, hfind⟩ := Option.ne_none_iff_exists'.1 fun h => hnone.1 h hcause
      rw [edgeOf, dif_neg hrelated, hfind, hnone.2 h]

/-- An edge that has no fault is read. -/
theorem exists_edgeOf_iff : (∃ edge, edgeOf d.id (.ofNodes d.nodes.toArray) e = .ok edge) ↔ d.IsEdge e := by
  constructor
  · rintro ⟨edge, hok⟩
    have hfault (err : BundleError) : ¬ d.EdgeFault e err := fun h => by
      rw [edgeOf_eq_error_iff.2 h] at hok
      cases hok
    have hrelated : e.relations ≠ [] := fun h => hfault _ (.relations h)
    have hcause : e.cause ∈ d.nodeIds := by
      by_contra h
      exact hfault _ (.cause hrelated h)
    have heffect : e.effect ∈ d.nodeIds := by
      by_contra h
      exact hfault _ (.effect hrelated hcause h)
    exact ⟨hrelated, hcause, heffect⟩
  · rintro ⟨hrelated, hcause, heffect⟩
    cases hedge : edgeOf d.id (.ofNodes d.nodes.toArray) e with
    | ok edge => exact ⟨edge, rfl⟩
    | error err =>
      cases edgeOf_eq_error_iff.1 hedge with
      | relations h => exact absurd h hrelated
      | cause _ h => exact absurd hcause h
      | effect _ _ h => exact absurd heffect h

/-- An edge that fails to load ends the pass. -/
theorem loadEdges_cons_of_error {loaded : LoadedEdges d.nodes.toArray.size} {es : List EdgeDocument}
    (h : edgeOf d.id (.ofNodes d.nodes.toArray) e = .error err) :
    loadEdges d.id (.ofNodes d.nodes.toArray) loaded (e :: es) = .error err := by
  rw [loadEdges, h]

/-- An edge that loads is entered before the others. -/
theorem loadEdges_cons_of_ok {loaded : LoadedEdges d.nodes.toArray.size} {es : List EdgeDocument}
    {edge : Edge d.nodes.toArray.size} (h : edgeOf d.id (.ofNodes d.nodes.toArray) e = .ok edge) :
    loadEdges d.id (.ofNodes d.nodes.toArray) loaded (e :: es) =
      loadEdges d.id (.ofNodes d.nodes.toArray) (loaded.push edge) es := by
  rw [loadEdges, h]

/-- Loaded edges come behind those that were there, written as the edges they were loaded from. -/
theorem map_writeEdge_of_loadEdges (h : d.nodeIds.Nodup) {loaded out : LoadedEdges d.nodes.toArray.size}
    {es : List EdgeDocument} (hok : loadEdges d.id (.ofNodes d.nodes.toArray) loaded es = .ok out) :
    out.edges.toList.map writeEdge = loaded.edges.toList.map writeEdge ++ es := by
  induction es generalizing loaded with
  | nil =>
    obtain rfl := Except.ok.inj hok
    rw [List.append_nil]
  | cons e es ih =>
    cases hedge : edgeOf d.id (.ofNodes d.nodes.toArray) e with
    | error err =>
      rw [loadEdges_cons_of_error hedge] at hok
      cases hok
    | ok edge =>
      rw [loadEdges_cons_of_ok hedge] at hok
      rw [ih hok, LoadedEdges.push, Array.toList_push, List.map_append, List.map_singleton,
        (edgeOf_eq_ok_iff h).1 hedge, List.append_assoc, List.singleton_append]

/-- Edges are loaded up to the first that has a fault. -/
theorem loadEdges_eq_error_iff {loaded : LoadedEdges d.nodes.toArray.size} {es : List EdgeDocument} :
    loadEdges d.id (.ofNodes d.nodes.toArray) loaded es = .error err ↔
    ∃ before e after, es = before ++ e :: after ∧ (∀ e' ∈ before, d.IsEdge e') ∧ d.EdgeFault e err := by
  constructor
  · induction es generalizing loaded with
    | nil => rintro ⟨⟩
    | cons e es ih =>
      intro herr
      cases hedge : edgeOf d.id (.ofNodes d.nodes.toArray) e with
      | error err' =>
        rw [loadEdges_cons_of_error hedge] at herr
        cases herr
        exact ⟨[], e, es, rfl, by simp, edgeOf_eq_error_iff.1 hedge⟩
      | ok edge =>
        rw [loadEdges_cons_of_ok hedge] at herr
        obtain ⟨before, e', after, rfl, hbefore, hfault⟩ := ih herr
        exact ⟨e :: before, e', after, rfl,
          List.forall_mem_cons.2 ⟨exists_edgeOf_iff.1 ⟨edge, hedge⟩, hbefore⟩, hfault⟩
  · rintro ⟨before, e, after, rfl, hbefore, hfault⟩
    induction before generalizing loaded with
    | nil => exact loadEdges_cons_of_error (edgeOf_eq_error_iff.2 hfault)
    | cons e' before ih =>
      obtain ⟨hsound, hbefore⟩ := List.forall_mem_cons.1 hbefore
      obtain ⟨edge, hedge⟩ := exists_edgeOf_iff.2 hsound
      rw [List.cons_append, loadEdges_cons_of_ok hedge, ih hbefore]

end Edges

/-! ## Documents -/

section Documents

variable {b : Bundle} {d : BundleDocument} {err : BundleError}

/-- The document of a bundle is well-formed. -/
theorem wellFormed_toDocument (b : Bundle) : b.toDocument.WellFormed where
  distinct := b.distinct
  edges := by
    intro e he
    obtain ⟨edge, -, rfl⟩ := List.mem_map.1 he
    have hmem (i : b.NodeIx) : b.nodes[i].id ∈ b.toDocument.nodeIds :=
      List.mem_map.2 ⟨b.nodes[i], by simp [toDocument], rfl⟩
    exact ⟨edge.related, hmem edge.cause, hmem edge.effect⟩

/-- Bundles are told apart by their documents. -/
theorem toDocument_inj {b b' : Bundle} : b.toDocument = b'.toDocument ↔ b = b' := by
  refine ⟨fun h => ?_, fun h => h ▸ rfl⟩
  obtain ⟨id, nodes, edges, distinct, byId, asCause, asEffect, rfl, rfl, rfl⟩ := b
  obtain ⟨id', nodes', edges', distinct', byId', asCause', asEffect', rfl, rfl, rfl⟩ := b'
  obtain ⟨rfl, hnodes, hedges⟩ := BundleDocument.mk.inj h
  obtain rfl := Array.toList_inj.1 hnodes
  have hlist : edges.toList = edges'.toList :=
    List.map_injective_iff.2 (fun _ _ he => writeEdge_inj distinct he) hedges
  obtain rfl := Array.toList_inj.1 hlist
  rfl

/-- What the nodes of a document enter is the table of these nodes. -/
theorem enterAll_numbered_eq_ok_iff {byId : NodeTable d.nodes.toArray.size} :
    NodeTable.enterAll ⟨[]⟩ (NodeTable.numbered d.nodes.toArray) = .ok byId ↔
      d.nodeIds.Nodup ∧ byId = .ofNodes d.nodes.toArray := by
  have hnone : ∀ id ∈ d.nodeIds, id ∉ (⟨[]⟩ : NodeTable d.nodes.toArray.size).ids := by
    simp [NodeTable.ids]
  have hids : (NodeTable.numbered d.nodes.toArray).map Prod.fst = d.nodeIds := NodeTable.map_fst_numbered _
  rw [NodeTable.enterAll_eq_ok_iff, hids]
  exact ⟨fun h => ⟨h.1, h.2.2⟩, fun h => ⟨h.1, hnone, h.2⟩⟩

/-- A bundle that loads has the document it was loaded from. -/
theorem toDocument_of_ofDocument (h : ofDocument d = .ok b) : b.toDocument = d := by
  unfold ofDocument at h
  split at h
  · cases h
  · rename_i byId hnodes
    obtain ⟨hnodup, rfl⟩ := enterAll_numbered_eq_ok_iff.1 hnodes
    split at h
    · cases h
    · rename_i loaded hedges
      obtain rfl := Except.ok.inj h
      have hwritten := map_writeEdge_of_loadEdges hnodup hedges
      exact congrArg (BundleDocument.mk d.id d.nodes) hwritten

/-- A document fails to load just for its first fault. -/
theorem ofDocument_eq_error_iff : ofDocument d = .error err ↔ d.FirstFault err := by
  have hids : (NodeTable.numbered d.nodes.toArray).map Prod.fst = d.nodeIds := NodeTable.map_fst_numbered _
  constructor
  · intro h
    unfold ofDocument at h
    split at h
    · rename_i id hrepeat
      obtain rfl := Except.error.inj h
      obtain ⟨before, after, hsplit, hnodup, -, hmem⟩ := NodeTable.enterAll_eq_error_iff.1 hrepeat
      rw [hids] at hsplit
      obtain ⟨before, after', hnodes, rfl, hafter⟩ := List.map_eq_append_iff.1 hsplit
      obtain ⟨n, after, rfl, rfl, rfl⟩ := List.map_eq_cons_iff.1 hafter
      exact .node hnodes hnodup (hmem.resolve_left List.not_mem_nil)
    · rename_i byId hnodes
      obtain ⟨hnodup, rfl⟩ := enterAll_numbered_eq_ok_iff.1 hnodes
      split at h
      · rename_i err' hedges
        obtain rfl := Except.error.inj h
        obtain ⟨before, e, after, hsplit, hbefore, hfault⟩ := loadEdges_eq_error_iff.1 hedges
        exact .edge hnodup hsplit hbefore hfault
      · cases h
  · intro h
    cases h with
    | @node before after n hnodes hnodup hrepeated =>
      have hfirst : NodeTable.enterAll ⟨[]⟩ (NodeTable.numbered d.nodes.toArray) = .error n.id :=
        NodeTable.enterAll_eq_error_iff.2 ⟨before.map Node.id, after.map Node.id,
          hids.trans (by simp [nodeIds, hnodes]), hnodup, by simp [NodeTable.ids], .inr hrepeated⟩
      unfold ofDocument
      split
      · rename_i id hrepeat
        rw [Except.error.inj (hfirst.symm.trans hrepeat)]
      · rename_i hok
        rw [hfirst] at hok
        cases hok
    -- the nodes are entered, so that the fault is left to the edges
    | edge distinct hsplit hbefore hfault =>
      have hok := enterAll_numbered_eq_ok_iff.2 ⟨distinct, rfl⟩
      unfold ofDocument
      split
      · rename_i hrepeat
        rw [hok] at hrepeat
        cases hrepeat
      · rename_i byId hnodes
        obtain ⟨-, rfl⟩ := enterAll_numbered_eq_ok_iff.1 hnodes
        rw [loadEdges_eq_error_iff.2 ⟨_, _, _, hsplit, hbefore, hfault⟩]

/-- A document loads just if it is well-formed. -/
theorem exists_ofDocument_iff : (∃ b, ofDocument d = .ok b) ↔ d.WellFormed := by
  constructor
  · rintro ⟨b, hb⟩
    exact toDocument_of_ofDocument hb ▸ wellFormed_toDocument b
  · intro h
    cases hd : ofDocument d with
    | ok b => exact ⟨b, rfl⟩
    | error err => exact absurd (ofDocument_eq_error_iff.1 hd) h.not_firstFault

/-- A document is loaded as the bundle that is written as this document. -/
theorem ofDocument_eq_ok_iff : ofDocument d = .ok b ↔ b.toDocument = d := by
  refine ⟨toDocument_of_ofDocument, ?_⟩
  rintro rfl
  obtain ⟨b', hb'⟩ := exists_ofDocument_iff.2 (wellFormed_toDocument b)
  rw [hb', toDocument_inj.1 (toDocument_of_ofDocument hb')]

end Documents

/-! ## What a bundle looks up -/

/-- What a bundle looks up by an id or by an end of an edge is at the positions that this id, or an edge with
this end, has in a document. -/
structure Indexes (b : Bundle) (d : BundleDocument) : Prop where
  find : ∀ id n, b.find? id = some n ↔ d.nodeIds[n.1]? = some id
  find_none : ∀ id, b.find? id = none ↔ id ∉ d.nodeIds
  cause : ∀ n e, e ∈ b.edgesAsCause n ↔ d.edges[e.1]?.map EdgeDocument.cause = some (b.node n).id
  cause_ordered : ∀ n, (b.edgesAsCause n).Pairwise (· < ·)
  effect : ∀ n e, e ∈ b.edgesAsEffect n ↔ d.edges[e.1]?.map EdgeDocument.effect = some (b.node n).id
  effect_ordered : ∀ n, (b.edgesAsEffect n).Pairwise (· < ·)

section Indexes

variable {b : Bundle} {n m : b.NodeIx} {e : b.EdgeIx}

/-- Nodes of a bundle are told apart by their ids. -/
theorem id_inj {i j : b.NodeIx} (h : (b.node i).id = (b.node j).id) : i = j := by
  refine Fin.ext ((List.getElem?_inj (by simp) b.distinct).1 ?_)
  simpa [node] using h

/-- The edges of the document are those of the bundle, in order. -/
theorem edges_toDocument (b : Bundle) (e : b.EdgeIx) :
    b.toDocument.edges[e.1]? = some (writeEdge (b.edge e)) := by
  have he : e.1 < b.edges.toList.length := by simp
  simp only [toDocument, List.getElem?_map, List.getElem?_eq_getElem he]
  rfl

/-- The tables of a bundle index its own document. -/
theorem indexes_toDocument (b : Bundle) : b.Indexes b.toDocument where
  find id n := by
    rw [find?, b.byId_eq, NodeTable.get?_eq_some_iff b.distinct]
    rfl
  find_none id := by
    rw [find?, b.byId_eq]
    exact NodeTable.get?_eq_none_iff
  cause n e := by
    rw [edges_toDocument, Option.map_some, Option.some_inj]
    simp only [edgesAsCause_eq, edgeIndices, List.mem_filter, List.mem_finRange, true_and, beq_iff_eq]
    exact ⟨fun h => h ▸ rfl, fun h => id_inj h⟩
  cause_ordered n := by
    rw [edgesAsCause_eq]
    exact (List.pairwise_lt_finRange _).filter _
  effect n e := by
    rw [edges_toDocument, Option.map_some, Option.some_inj]
    simp only [edgesAsEffect_eq, edgeIndices, List.mem_filter, List.mem_finRange, true_and, beq_iff_eq]
    exact ⟨fun h => h ▸ rfl, fun h => id_inj h⟩
  effect_ordered n := by
    rw [edgesAsEffect_eq]
    exact (List.pairwise_lt_finRange _).filter _

/-- A step over an edge can be taken back. -/
theorem mem_stepsFrom_comm : (e, m) ∈ b.stepsFrom n ↔ (e, n) ∈ b.stepsFrom m := by
  rw [mem_stepsFrom_iff, mem_stepsFrom_iff]
  exact ⟨Joins.symm, Joins.symm⟩

end Indexes

/-- Loading is exact and can be reversed. A document is loaded exactly if it is well-formed, and of any other
the first fault is reported. A bundle that was loaded is written as the document that it was loaded from, its
indexes are those of the lists of this document, and each step over one of its edges can be taken back. -/
theorem ofDocument_exact (d : BundleDocument) :
    ((∃ b, ofDocument d = .ok b) ↔ d.WellFormed) ∧
    (∀ err, ofDocument d = .error err ↔ d.FirstFault err) ∧
    ∀ b, ofDocument d = .ok b → b.toDocument = d ∧ b.Indexes d ∧
      ∀ e n m, (e, m) ∈ b.stepsFrom n ↔ (e, n) ∈ b.stepsFrom m := by
  refine ⟨exists_ofDocument_iff, fun err => ofDocument_eq_error_iff, fun b hb => ?_⟩
  obtain rfl := toDocument_of_ofDocument hb
  exact ⟨rfl, indexes_toDocument b, fun e n m => mem_stepsFrom_comm⟩

end Bundle

end ProvenanceTrail
