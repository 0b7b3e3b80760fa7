import ProvenanceTrail.Proofs.Condition.Grammar

/-!
# What parsers read

A parser reads the tag of an object and the fields of the tag, and nothing else (`Family.ofJson_congr`). A
field that is `null` is read as one that is missing. With the grammar this determines what is accepted and
what it depends on (`Family.parsers_exact`).
-/

namespace ProvenanceTrail

/-- The fields that are read of an object: those of its tag. -/
def Family.reads (f : Family) (members : Members) : List String :=
  match Json.lookup "type" members with
  | some (.string tag) => ((f.fields? members tag).getD []).map Prod.fst
  | _ => []

namespace Members

variable {members members' : Members} {name tag : String} {fields : Fields}

/-- Two objects have the same value, or none, in each of some fields. -/
def Agree (members members' : Members) (fields : Fields) : Prop :=
  ∀ name ∈ fields.map Prod.fst, members'.field? name = members.field? name

/-- Any two documents agree about no fields. -/
@[simp]
theorem agree_nil : members.Agree members' [] := by
  intro name h
  cases h

/-- Two documents agree about fields just if they hold the same first one and agree about the others. -/
@[simp]
theorem agree_cons_iff {form : FieldForm} : members.Agree members' ((name, form) :: fields) ↔
    members'.field? name = members.field? name ∧ members.Agree members' fields :=
  List.forall_mem_cons

section Read

variable {α : Type} {g : Json → Except ConditionError α}

/-- A field is read the same from documents that hold the same there. -/
theorem read_congr (h : members'.field? name = members.field? name) :
    members'.read name g = members.read name g := by
  rw [read, read, h]

theorem string_congr (h : members'.field? name = members.field? name) :
    members'.string tag name = members.string tag name := by
  rw [string_eq_read, string_eq_read, read_congr h]

theorem bool_congr (h : members'.field? name = members.field? name) :
    members'.bool tag name = members.bool tag name := by
  rw [bool_eq_read, bool_eq_read, read_congr h]

theorem word_congr {meaning : String → Option α} {fault : String → ConditionFault}
    (h : members'.field? name = members.field? name) :
    members'.word tag name meaning fault = members.word tag name meaning fault := by
  rw [word_eq_read, word_eq_read, read_congr h]

theorem nested_congr (h : members'.field? name = members.field? name) :
    (members'.nested name fun v _ => g v) = members.nested name fun v _ => g v := by
  rw [nested_eq_read, nested_eq_read, read_congr h]

theorem nestedList_congr (h : members'.field? name = members.field? name) :
    (members'.nestedList tag name fun v _ => g v) = members.nestedList tag name fun v _ => g v := by
  rw [nestedList_eq_read, nestedList_eq_read, read_congr h]

/-- The tag is read the same from documents that hold the same under it. -/
theorem tag_congr (h : Json.lookup "type" members' = Json.lookup "type" members) :
    members'.tag = members.tag := by
  rw [Members.tag, Members.tag, h]

end Read

end Members

/-! ## Leaves -/

section Leaves

open Family Members

variable {members members' : Members} {tag : String}

/-- A parser of leaves reads the fields of the leaf. -/
def LeafReads {P : Type} (f : Family) (leaf : String → Members → Except ConditionError (Option P)) : Prop :=
  ∀ members members' tag, (∀ fields, Text.meaning? (f.own members) tag = some fields →
    Members.Agree members members' fields) → leaf tag members' = leaf tag members

/-- A constraint on names depends on its own fields only. -/
theorem nameConstraint_congr (h : members.Agree members' nameFields) :
    NodePredicate.nameConstraint members' tag = NodePredicate.nameConstraint members tag := by
  simp only [nameFields, agree_cons_iff, agree_nil, and_true] at h
  rw [NodePredicate.nameConstraint, NodePredicate.nameConstraint, pattern, pattern, word_congr h]

/-- A constraint on texts depends on its own fields only. -/
theorem textConstraint_congr (h : members.Agree members' textFields) :
    NodePredicate.textConstraint members' tag = NodePredicate.textConstraint members tag := by
  simp only [textFields, agree_cons_iff, agree_nil, and_true] at h
  simp only [NodePredicate.textConstraint, pattern, word_congr h.1, word_congr h.2]

/-- A constraint on times depends on its own fields only. -/
theorem timeConstraint_congr (h : members.Agree members' timeFields) :
    NodePredicate.timeConstraint members' tag = NodePredicate.timeConstraint members tag := by
  simp only [timeFields, agree_cons_iff, agree_nil, and_true] at h
  simp only [NodePredicate.timeConstraint, timestamp, word_congr h.1, word_congr h.2.1, word_congr h.2.2]

/-- A constraint on attributes depends on its kind and on the fields of that kind. -/
theorem constraintByKind_congr (hkind : members'.field? "kind" = members.field? "kind")
    (h : members.Agree members' (fieldsOfKind (members.field? "kind"))) :
    NodePredicate.constraintByKind members' tag = NodePredicate.constraintByKind members tag := by
  unfold NodePredicate.constraintByKind
  rw [string_eq_read, string_eq_read, Members.read, Members.read, hkind]
  generalize members.field? "kind" = kind at h
  cases kind with
  | none => rfl
  | some v =>
    cases v with
    | string s =>
      simp only [textOf, Except.map, ok_bind]
      split
      case h_1 | h_5 => rfl
      all_goals
        rename_i heq
        obtain rfl := Option.some_inj.1 heq
        simp only [fieldsOfKind, valueKinds, Text.meaning?_cons] at h
      · rw [nameConstraint_congr (by simpa using h)]
      · rw [textConstraint_congr (by simpa using h)]
      · rw [timeConstraint_congr (by simpa using h)]
    | _ => rfl

/-- The leaves of node conditions depend on the fields their grammar names only. -/
theorem node_leafReads : LeafReads .node NodePredicate.ofMembers := by
  intro members members' tag h
  unfold NodePredicate.ofMembers
  split
  case h_9 => rfl
  all_goals simp only [own, Text.meaning?_cons, String.reduceEq, reduceIte, Option.some.injEq, forall_eq',
    agree_cons_iff, agree_nil, and_true] at h
  · simp only [pattern, word_congr h]
  · simp only [NodePredicate.attributeUri, string_congr h]
  · simp only [NodePredicate.attributeUri, string_congr h.1, constraintByKind_congr h.2.1 h.2.2]
  · simp only [NodePredicate.attributeUri, string_congr h.1, nameConstraint_congr h.2]
  · simp only [NodePredicate.attributeUri, string_congr h.1, textConstraint_congr h.2]
  · simp only [NodePredicate.attributeUri, string_congr h.1, timeConstraint_congr h.2]
  · simp only [NodePredicate.kind, word_congr h]
  · simp only [NodePredicate.kind, word_congr h]

theorem edge_leafReads : LeafReads .edge EdgePredicate.ofMembers := by
  intro members members' tag h
  unfold EdgePredicate.ofMembers
  split
  case h_3 => rfl
  all_goals
    simp only [own, Text.meaning?_cons, String.reduceEq, reduceIte, Option.some.injEq, forall_eq',
      agree_cons_iff, agree_nil, and_true] at h
    simp only [word_congr h]

theorem step_leafReads : LeafReads .step StepPredicate.ofMembers := by
  intro members members' tag h
  unfold StepPredicate.ofMembers
  split
  case h_3 => rfl
  all_goals simp only [own, Text.meaning?_cons, String.reduceEq, reduceIte, Option.some.injEq, forall_eq',
    agree_cons_iff, agree_nil, and_true] at h
  · simp only [nested_congr h.1, nested_congr h.2.1, bool_congr h.2.2]
  · simp only [bool_congr h]

theorem bundle_leafReads : LeafReads .bundle BundlePredicate.ofMembers := by
  intro members members' tag h
  unfold BundlePredicate.ofMembers
  split
  case h_3 => rfl
  all_goals simp only [own, Text.meaning?_cons, String.reduceEq, reduceIte, Option.some.injEq, forall_eq',
    agree_cons_iff, agree_nil, and_true] at h
  · simp only [nested_congr h]
  · simp only [word_congr h.1, nested_congr h.2.1, nested_congr h.2.2]

end Leaves

/-! ## Parsers -/

section Parsers

open Family Members

variable {members members' : Members} {tag : String}

/-- A condition depends on the tag and the fields its grammar names only. -/
theorem Condition.ofJson_congr {P : Type} {f : Family}
    {leaf : String → Members → Except ConditionError (Option P)}
    (htable : ∀ members, f.table members = f.connectives ++ f.own members) (hleaf : LeafReads f leaf)
    (htype : Json.lookup "type" members' = Json.lookup "type" members)
    (h : ∀ name ∈ f.reads members, members'.field? name = members.field? name) :
    ofJson leaf (.object members') = ofJson leaf (.object members) := by
  rw [ofJson_object, ofJson_object, tag_congr htype]
  cases htag : members.tag with
  | error e => rfl
  | ok tag =>
    rw [reads, tag_eq_ok_iff.1 htag] at h
    simp only [fields?, htable, Text.meaning?_append] at h
    simp only [ok_bind]
    split
    case h_7 h₁ h₂ h₃ h₄ h₅ h₆ =>
      rw [meaning?_connectives h₁ h₂ h₃ h₄ h₅ h₆, Option.none_or] at h
      have hagree (fields : Fields) (hfields : Text.meaning? (f.own members) tag = some fields) :
          members.Agree members' fields := by
        rwa [hfields] at h
      rw [leafOf, leafOf, hleaf members members' tag hagree]
    all_goals
      simp only [connectives, Text.meaning?_cons, String.reduceEq, reduceIte, Option.some_or,
        Option.getD_some, List.map_cons, List.map_nil, List.forall_mem_cons] at h
      simp only [read_congr h.1]
    · rw [read_congr h.2.1]
    · rw [read_congr h.2.1]

/-- A search depends on the tag and the fields its grammar names only. -/
theorem Findable.ofJson_congr (htype : Json.lookup "type" members' = Json.lookup "type" members)
    (h : ∀ name ∈ findable.reads members, members'.field? name = members.field? name) :
    Findable.ofJson (.object members') = Findable.ofJson (.object members) := by
  rw [Findable.ofJson, Findable.ofJson, tag_congr htype]
  cases htag : members.tag with
  | error e => rfl
  | ok tag =>
    rw [reads, tag_eq_ok_iff.1 htag] at h
    simp only [fields?, table, own] at h
    simp only [ok_bind]
    split
    case h_5 | h_6 | h_7 => rfl
    all_goals
      simp only [searches, Text.meaning?_cons, String.reduceEq, reduceIte, Option.getD_some, List.map_cons,
        List.map_nil, List.forall_mem_cons] at h
    · simp only [nested_congr h.1, nested_congr h.2.1]
    · simp only [nestedList_congr h.1, nested_congr h.2.1]
    · simp only [nested_congr h.1, nested_congr h.2.1]
    · simp only [bool_congr h.1]

/-- A countable depends on the tag and the fields its grammar names only. -/
theorem Countable.ofJson_congr (htype : Json.lookup "type" members' = Json.lookup "type" members)
    (h : ∀ name ∈ countable.reads members, members'.field? name = members.field? name) :
    Countable.ofJson (.object members') = Countable.ofJson (.object members) := by
  have hfindable : (∀ name ∈ findable.reads members, members'.field? name = members.field? name) →
      Findable.ofJson (.object members') = Findable.ofJson (.object members) := Findable.ofJson_congr htype
  rw [Countable.ofJson, Countable.ofJson, tag_congr htype]
  cases htag : members.tag with
  | error e => rfl
  | ok tag =>
    rw [reads, tag_eq_ok_iff.1 htag] at h hfindable
    simp only [fields?, table, own, Text.meaning?_cons] at h hfindable
    simp only [ok_bind]
    split
    case h_1 =>
      have hcount : members'.field? "count" = members.field? "count" := h "count" (by simp)
      rw [hcount]
    case h_2 hne =>
      rw [if_neg hne] at h
      rw [hfindable h]

/-- A parser reads the tag of an object and the fields of the tag. -/
theorem Family.ofJson_congr (f : Family) (htype : Json.lookup "type" members' = Json.lookup "type" members)
    (h : ∀ name ∈ f.reads members, members'.field? name = members.field? name) :
    f.ofJson (.object members') = f.ofJson (.object members) := by
  cases f with
  | node => exact Condition.ofJson_congr (fun _ => rfl) node_leafReads htype h
  | edge => exact Condition.ofJson_congr (fun _ => rfl) edge_leafReads htype h
  | step => exact Condition.ofJson_congr (fun _ => rfl) step_leafReads htype h
  | bundle => exact Condition.ofJson_congr (fun _ => rfl) bundle_leafReads htype h
  | findable => exact Findable.ofJson_congr htype h
  | countable => exact Countable.ofJson_congr htype h

end Parsers

end ProvenanceTrail
