import ProvenanceTrail.Graph.Document

/-!
# Tables of a bundle

What is looked up often in a bundle stands in tables: the nodes by their ids, and the edges by the nodes at
their ends. A table is filled entry by entry. Nodes are entered as long as their ids are different
(`NodeTable.enterAll`), and an edge that comes to others is entered behind them (`EdgeTable.ofEdges_push`).
-/

namespace ProvenanceTrail

/-- An edge between two of `size` nodes. -/
structure Edge (size : Nat) where
  cause : Fin size
  effect : Fin size
  relations : List RelationKind
  related : relations ≠ []
deriving DecidableEq, Repr

namespace Edge

/-- Whether the edge carries a relation. -/
def hasRelation {size : Nat} (e : Edge size) (k : RelationKind) : Bool := e.relations.contains k

/-- The end opposite to a node; `none` for a node at neither end. -/
def other? {size : Nat} (e : Edge size) (n : Fin size) : Option (Fin size) :=
  if n = e.cause then some e.effect else if n = e.effect then some e.cause else none

end Edge

/-- The positions of nodes by their ids. -/
structure NodeTable (size : Nat) where
  entries : List (QualifiedName × Fin size)

namespace NodeTable

variable {size : Nat}

/-- Enters a node in front of those that are there. -/
def insert (table : NodeTable size) (id : QualifiedName) (i : Fin size) : NodeTable size :=
  ⟨(id, i) :: table.entries⟩

/-- The position of the node with an id. -/
def get? (table : NodeTable size) (id : QualifiedName) : Option (Fin size) :=
  (table.entries.find? fun entry => entry.1 == id).map (·.2)

/-- The ids of some nodes, with the positions of the nodes. -/
def numbered (nodes : Array Node) : List (QualifiedName × Fin nodes.size) :=
  (List.finRange nodes.size).map fun i => (nodes[i].id, i)

/-- The table of some nodes, which are entered in their order. -/
def ofNodes (nodes : Array Node) : NodeTable nodes.size :=
  (numbered nodes).foldl (fun table entry => table.insert entry.1 entry.2) ⟨[]⟩

/-- Enters nodes in their order, up to one whose id is there already. -/
def enterAll (table : NodeTable size) :
    List (QualifiedName × Fin size) → Except QualifiedName (NodeTable size)
  | [] => .ok table
  | (id, i) :: rest => if (table.get? id).isSome then .error id else (table.insert id i).enterAll rest

/-- The ids in a table. -/
def ids (table : NodeTable size) : List QualifiedName := table.entries.map Prod.fst

variable {table out : NodeTable size} {id : QualifiedName} {entries : List (QualifiedName × Fin size)}

theorem isSome_get?_iff : (table.get? id).isSome ↔ id ∈ table.ids := by
  simp [get?, ids]

/-- Nodes are entered exactly if their ids are different from one another and from those in the table. -/
theorem enterAll_eq_ok_iff : table.enterAll entries = .ok out ↔
    (entries.map Prod.fst).Nodup ∧ (∀ id ∈ entries.map Prod.fst, id ∉ table.ids) ∧
      out = entries.foldl (fun table entry => table.insert entry.1 entry.2) table := by
  induction entries generalizing table with
  | nil => simp [enterAll, eq_comm]
  | cons entry entries ih =>
    obtain ⟨id, i⟩ := entry
    by_cases hid : id ∈ table.ids
    · simp [enterAll, isSome_get?_iff.2 hid, hid]
    · have hids : (table.insert id i).ids = id :: table.ids := rfl
      simp only [enterAll, isSome_get?_iff, hid, if_false, ih, hids, List.map_cons, List.nodup_cons,
        List.mem_cons, List.foldl_cons]
      grind

theorem map_fst_numbered (nodes : Array Node) :
    (numbered nodes).map Prod.fst = nodes.toList.map Node.id := by
  rw [numbered, List.map_map]
  exact List.ext_getElem (by simp) fun k _ _ => by simp

variable {nodes : Array Node} {byId : NodeTable nodes.size}

theorem nodup_of_enterAll (h : enterAll ⟨[]⟩ (numbered nodes) = .ok byId) : (nodes.toList.map Node.id).Nodup :=
  map_fst_numbered nodes ▸ (enterAll_eq_ok_iff.1 h).1

theorem eq_ofNodes_of_enterAll (h : enterAll ⟨[]⟩ (numbered nodes) = .ok byId) : byId = ofNodes nodes :=
  (enterAll_eq_ok_iff.1 h).2.2

end NodeTable

/-- The entry of a vector at a place is the one at the number of that place. -/
theorem get_eq_getElem {α : Type} {n : Nat} (v : Vector α n) (i : Fin n) : v.get i = getElem v i.val i.isLt := rfl

/-- The edges at each node, by their positions. -/
structure EdgeTable (nodes edges : Nat) where
  rows : Vector (List (Fin edges)) nodes

namespace EdgeTable

variable {nodes edges : Nat}

/-- The edges at a node. -/
def row (table : EdgeTable nodes edges) (n : Fin nodes) : List (Fin edges) := table.rows.get n

/-- Enters an edge at a node, behind those that are there. -/
def push (table : EdgeTable nodes edges) (n : Fin nodes) (e : Fin edges) : EdgeTable nodes edges :=
  ⟨table.rows.set n (table.row n ++ [e]) n.isLt⟩

/-- The table for more edges, none of which is entered. -/
def grow {edges' : Nat} (table : EdgeTable nodes edges) (h : edges ≤ edges') : EdgeTable nodes edges' :=
  ⟨table.rows.map fun row => row.map (Fin.castLE h)⟩

/-- The table of some edges, which are entered in their order at one of their ends. -/
def ofEdges (edges : Array (Edge nodes)) (ending : Edge nodes → Fin nodes) :
    EdgeTable nodes edges.size :=
  (List.finRange edges.size).foldl (fun table e => table.push (ending edges[e]) e)
    ⟨Vector.replicate nodes []⟩

variable {table : EdgeTable nodes edges} {n m : Fin nodes} {e : Fin edges}

@[ext]
theorem ext {table table' : EdgeTable nodes edges} (h : ∀ n, table.row n = table'.row n) : table = table' := by
  obtain ⟨rows⟩ := table
  obtain ⟨rows'⟩ := table'
  exact congrArg mk (Vector.ext fun i hi => by simpa [row, get_eq_getElem] using h ⟨i, hi⟩)

theorem row_push : (table.push m e).row n = table.row n ++ if m = n then [e] else [] := by
  simp only [push, row, get_eq_getElem, Vector.getElem_set, Fin.val_inj]
  split <;> simp [*]

theorem row_grow {edges' : Nat} (h : edges ≤ edges') : (table.grow h).row n = (table.row n).map (Fin.castLE h) := by
  simp [grow, row, get_eq_getElem]

/-- Entering edges one after the other appends them, in their order, to the edges at their ends. -/
theorem row_foldl_push (ending : Fin edges → Fin nodes) (l : List (Fin edges)) :
    (l.foldl (fun table e => table.push (ending e) e) table).row n =
      table.row n ++ l.filter fun e => ending e == n := by
  induction l generalizing table with
  | nil => simp
  | cons e l ih =>
    rw [List.foldl_cons, ih, row_push, List.append_assoc]
    by_cases h : ending e = n <;> simp [h]

/-- The edges with an end at a node are listed in their order. -/
theorem row_ofEdges (edges : Array (Edge nodes)) (ending : Edge nodes → Fin nodes) (n : Fin nodes) :
    (ofEdges edges ending).row n = (List.finRange edges.size).filter fun e => ending edges[e] == n := by
  rw [ofEdges, row_foldl_push]
  simp [row, get_eq_getElem]

theorem size_lt_size_push {α : Type} (as : Array α) (a : α) : as.size < (as.push a).size := by
  rw [Array.size_push]
  exact Nat.lt_succ_self _

theorem size_le_size_push {α : Type} (as : Array α) (a : α) : as.size ≤ (as.push a).size :=
  Nat.le_of_lt (size_lt_size_push as a)

/-- The table with one edge more is made from that without it. -/
theorem ofEdges_push (edges : Array (Edge nodes)) (edge : Edge nodes) (ending : Edge nodes → Fin nodes) :
    ofEdges (edges.push edge) ending = ((ofEdges edges ending).grow (size_le_size_push edges edge)).push
      (ending edge) ⟨edges.size, size_lt_size_push edges edge⟩ := by
  have hrange {k : Nat} (h : k = edges.size + 1) : List.finRange k =
      (List.finRange edges.size).map (Fin.castLE (by omega)) ++ [⟨edges.size, by omega⟩] := by
    subst h
    exact List.finRange_succ_last
  ext1 n
  rw [row_push, row_grow, row_ofEdges, row_ofEdges, hrange (Array.size_push edge), List.filter_append,
    List.filter_map]
  congr 1
  · congr 1
    refine List.filter_congr fun e _ => ?_
    simp [Array.getElem_push_lt]
  · by_cases h : ending edge = n <;> simp [h]

end EdgeTable

end ProvenanceTrail
