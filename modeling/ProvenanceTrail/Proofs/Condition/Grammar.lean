import ProvenanceTrail.Condition.Parser
import ProvenanceTrail.Proofs.Text.Words
import ProvenanceTrail.Proofs.Time.Grammar

/-!
# The grammar of conditions

The six parsers of conditions share their connectives and their fields. `Family.table` lists, for each
family, the tags with the fields that they read, and `Family.WellFormed` says which values the table
describes: objects with a tag of the table, whose fields are missing or have their form, down to any depth.
-/

namespace ProvenanceTrail

/-- The families of conditions, each with a parser. -/
inductive Family where
  | node
  | edge
  | step
  | bundle
  | findable
  | countable

/-- What the value of a field must be. -/
inductive FieldForm where
  /-- a truth value -/
  | truth
  /-- a natural number below 2^64 -/
  | natural
  /-- a text of a kind -/
  | text (known : String → Prop)
  /-- a condition of a family -/
  | tree (family : Family)
  /-- a list of conditions of a family -/
  | trees (family : Family)

/-- Fields by their names. -/
abbrev Fields := List (String × FieldForm)

namespace FieldForm

/-- Any text. -/
def string : FieldForm := .text fun _ => True

/-- One of some texts. -/
def oneOf (texts : List String) : FieldForm := .text (· ∈ texts)

/-- One of some words, in any case and with or without `PROV_` in front. -/
def word (words : List String) : FieldForm := .text fun s => ∃ word ∈ words, Text.Spells word s

/-- A pattern: between anchors, it is a regular expression. -/
def pattern : FieldForm := .text fun s => (Regex.parse? ("^(?:" ++ s ++ ")$")).isSome

/-- A timestamp of the strict grammar. -/
def time : FieldForm :=
  .text fun s => ∃ p t, Timestamp.Grammar.strict.Spells s.toList p ∧ p.timestamp? = some t

end FieldForm

/-- The words for the kinds of nodes. -/
def kindWords : List String := ["activity", "entity", "agent"]

/-- The words for the relations. -/
def relationWords : List String :=
  ["derivation", "specialization", "usage", "generation", "association", "attribution", "delegation",
    "communication", "membership", "invalidation", "start", "end", "influence", "alternate"]

/-- The comparisons of numbers, each in a short and a long spelling. -/
def comparisonTexts : List String :=
  ["EQ", "EQUALS", "LT", "LESS_THAN", "LE", "LESS_THAN_OR_EQUALS", "GT", "GREATER_THAN", "GE",
    "GREATER_THAN_OR_EQUALS"]

/-- The fields of a constraint on names. -/
def nameFields : Fields := [("uriRegex", .pattern)]

/-- The fields of a constraint on texts. -/
def textFields : Fields := [("langRegex", .pattern), ("valueRegex", .pattern)]

/-- The fields of a constraint on times. -/
def timeFields : Fields := [("isEqual", .time), ("isBefore", .time), ("isAfter", .time)]

/-- The kinds of constraints on values, with their fields. -/
def valueKinds : List (String × Fields) :=
  [("QualifiedName", nameFields), ("LangString", textFields), ("Timestamp", timeFields)]

/-- The fields of the constraint that a field `kind` names. -/
def fieldsOfKind : Option Json → Fields
  | some (.string kind) => (Text.meaning? valueKinds kind).getD []
  | _ => []

namespace Family

/-- The connectives over the conditions of a family. -/
def connectives (f : Family) : List (String × Fields) :=
  [("AllTrue", [("conditions", .trees f)]), ("AnyTrue", [("conditions", .trees f)]),
    ("Not", [("condition", .tree f)]), ("Negation", [("condition", .tree f)]),
    ("Either", [("first", .tree f), ("second", .tree f)]),
    ("Implication", [("premise", .tree f), ("consequence", .tree f)])]

/-- The searches. -/
def searches : List (String × Fields) :=
  [("FittingNodes", [("nodeCondition", .tree .node), ("startsIn", .tree .findable)]),
    ("FittingLinearSubgraphs", [("graphParts", .trees .step), ("startsIn", .tree .findable)]),
    ("FilteredSubgraphs", [("filter", .tree .step), ("startsIn", .tree .findable)]),
    ("DerivationPathFromStartNode", [("backward", .truth)]), ("StartNode", []), ("WholeGraph", [])]

/-- The tags that belong to one family, with the fields that they read. Which fields `HasAttrValue` reads
depends on one of them. -/
def own (members : Members) : Family → List (String × Fields)
  | node =>
    [("HasId", [("idUriRegex", .pattern)]), ("HasAttr", [("attributeNameUri", .string)]),
      ("HasAttrValue", ("attributeNameUri", .string) :: ("kind", .oneOf (valueKinds.map Prod.fst)) ::
        fieldsOfKind (members.field? "kind")),
      ("HasAttrQualifiedNameValue", ("attributeNameUri", .string) :: nameFields),
      ("HasAttrLangStringValue", ("attributeNameUri", .string) :: textFields),
      ("HasAttrTimestampValue", ("attributeNameUri", .string) :: timeFields),
      ("IsKind", [("kind", .word kindWords)]), ("IsNotKind", [("kind", .word kindWords)])]
  | edge =>
    [("IsRelation", [("relation", .word relationWords)]), ("IsNotRelation", [("relation", .word relationWords)])]
  | step =>
    [("EdgeToNodeCondition", [("edgeCondition", .tree edge), ("nodeCondition", .tree node),
        ("nodeIsEffect", .truth)]),
      ("DerivationPathCondition", [("backward", .truth)])]
  | bundle =>
    [("AllNodes", [("condition", .tree node)]),
      ("CountComparisonCondition", [("comparisonResult", .oneOf comparisonTexts),
        ("first", .tree countable), ("second", .tree countable)])]
  | findable => searches
  | countable => ("CountConstant", [("count", .natural)]) :: searches

/-- All tags of a family, with the fields that they read. -/
def table (f : Family) (members : Members) : List (String × Fields) :=
  match f with
  | node | edge | step | bundle => f.connectives ++ f.own members
  | findable | countable => f.own members

/-- The fields that a tag reads; `none` when the family does not have the tag. -/
def fields? (f : Family) (members : Members) (tag : String) : Option Fields :=
  Text.meaning? (f.table members) tag

mutual

/-- The values of a family: objects with a tag of the family, whose fields have their forms. -/
inductive WellFormed : Family → Json → Prop
  | object {f : Family} {members : Members} {tag : String} {fields : Fields}
    (htag : Json.lookup "type" members = some (.string tag)) (hfields : f.fields? members tag = some fields)
    (h : ∀ name form v, (name, form) ∈ fields → members.field? name = some v → HasForm form v) :
    WellFormed f (.object members)

/-- The values of a form. -/
inductive HasForm : FieldForm → Json → Prop
  | truth (b : Bool) : HasForm .truth (.bool b)
  | natural (n : Nat) : HasForm .natural (.number (.natural n))
  | text {known : String → Prop} {s : String} (h : known s) : HasForm (.text known) (.string s)
  | tree {f : Family} {v : Json} (h : WellFormed f v) : HasForm (.tree f) v
  | trees {f : Family} {items : List Json} (h : ∀ v, v ∈ items → WellFormed f v) :
    HasForm (.trees f) (.array items)

end

/-- What the parser of a family gives. -/
def Tree : Family → Type
  | node => Condition NodePredicate
  | edge => Condition EdgePredicate
  | step => Condition StepPredicate
  | bundle => Condition BundlePredicate
  | findable => Findable
  | countable => Countable

/-- The parser of a family. -/
def ofJson : (f : Family) → Json → Except ConditionError f.Tree
  | node => Condition.nodeOfJson
  | edge => Condition.edgeOfJson
  | step => Condition.stepOfJson
  | bundle => Condition.bundleOfJson
  | findable => Findable.ofJson
  | countable => Countable.ofJson

end Family

/-! ## Reading fields -/

/-- A reader gives a result. -/
def Succeeds {α : Type} (r : Except ConditionError α) : Prop := ∃ a, r = .ok a

section Succeeds

variable {α β : Type} {r : Except ConditionError α} {g : α → Except ConditionError β}

/-- A result is a success. -/
@[simp]
theorem succeeds_ok (a : α) : Succeeds (.ok a) := ⟨a, rfl⟩

/-- A pure result is a success. -/
@[simp]
theorem succeeds_pure (a : α) : Succeeds (pure a : Except ConditionError α) := ⟨a, rfl⟩

/-- An error is no success. -/
@[simp]
theorem not_succeeds_error (e : ConditionError) : ¬ Succeeds (.error e : Except ConditionError α) := by
  rintro ⟨a, h⟩
  cases h

/-- A thrown error is no success. -/
@[simp]
theorem not_succeeds_throw (e : ConditionError) : ¬ Succeeds (throw e : Except ConditionError α) :=
  not_succeeds_error e

/-- Changing the result does not change whether there is one. -/
@[simp]
theorem succeeds_map_iff {g : α → β} : Succeeds (r.map g) ↔ Succeeds r := by
  cases r <;> simp [Except.map]

/-- The same for the functor notation. -/
@[simp]
theorem succeeds_fmap_iff {g : α → β} : Succeeds (g <$> r) ↔ Succeeds r := succeeds_map_iff

/-- Two readers in turn succeed if the first does and the second does on its result. -/
theorem succeeds_bind_iff : Succeeds (r >>= g) ↔ ∃ a, r = .ok a ∧ Succeeds (g a) := by
  cases r <;> simp [bind, Except.bind]

/-- After a success the second reader decides. -/
theorem ok_bind (a : α) : (Except.ok a >>= g) = g a := rfl

/-- After an error the second reader is not asked. -/
theorem error_bind (e : ConditionError) : (Except.error e >>= g) = .error e := rfl

/-- Succeeding is having a result. -/
theorem exists_eq_ok_iff : (∃ a, r = .ok a) ↔ Succeeds r := Iff.rfl

end Succeeds

namespace Members

open Family

variable {members : Members} {variant name : String} {form : FieldForm} {fields : Fields}

/-- A field is missing or has a form. -/
def FieldFits (members : Members) (name : String) (form : FieldForm) : Prop :=
  ∀ v, members.field? name = some v → HasForm form v

/-- Every field is missing or has its form. -/
def Fit (members : Members) (fields : Fields) : Prop :=
  ∀ name form v, (name, form) ∈ fields → members.field? name = some v → HasForm form v

/-- Members fit no fields at all. -/
@[simp]
theorem fit_nil : members.Fit [] := by
  intro name form v h
  cases h

/-- Members fit some fields if they fit the first and fit the rest. -/
@[simp]
theorem fit_cons_iff : members.Fit ((name, form) :: fields) ↔
    members.FieldFits name form ∧ members.Fit fields := by
  constructor
  · intro h
    exact ⟨fun v => h name form v List.mem_cons_self,
      fun n f v hmem => h n f v (List.mem_cons_of_mem _ hmem)⟩
  · rintro ⟨hhead, hrest⟩ n f v hmem
    rcases List.mem_cons.1 hmem with heq | hmem
    · obtain ⟨rfl, rfl⟩ := Prod.mk.inj heq
      exact hhead v
    · exact hrest n f v hmem

/-- Reads a field by its value. Every reader of fields is of this form. -/
def read {α : Type} (members : Members) (name : String) (g : Json → Except ConditionError α) :
    Except ConditionError (Option α) :=
  match members.field? name with
  | none => .ok none
  | some v => (g v).map some

/-- Reads a text. -/
def textOf (variant name : String) : Json → Except ConditionError String
  | .string s => .ok s
  | v => .error (invalid variant name v)

/-- Reads a truth value. -/
def truthOf (variant name : String) : Json → Except ConditionError Bool
  | .bool b => .ok b
  | v => .error (invalid variant name v)

/-- Reads a text that has a meaning. -/
def wordOf {α : Type} (variant name : String) (meaning : String → Option α)
    (fault : String → ConditionFault) : Json → Except ConditionError α
  | .string s =>
    match meaning s with
    | none => .error (.configuration (fault s))
    | some a => .ok a
  | v => .error (invalid variant name v)

/-- Reads a list of items. -/
def itemsOf {α : Type} (variant name : String) (g : Json → Except ConditionError α) :
    Json → Except ConditionError (List α)
  | .array items => items.mapM g
  | v => .error (invalid variant name v)

section Read

variable {α : Type} {g : Json → Except ConditionError α}

/-- A field of texts is read by its value. -/
theorem string_eq_read : members.string variant name = members.read name (textOf variant name) := by
  unfold string read
  cases members.field? name with
  | none => rfl
  | some v => cases v <;> rfl

/-- A field of truth values is read by its value. -/
theorem bool_eq_read : members.bool variant name = members.read name (truthOf variant name) := by
  unfold bool read
  cases members.field? name with
  | none => rfl
  | some v => cases v <;> rfl

/-- A field of words is read by its value. -/
theorem word_eq_read {meaning : String → Option α} {fault : String → ConditionFault} :
    members.word variant name meaning fault = members.read name (wordOf variant name meaning fault) := by
  rw [word, string_eq_read, read, read]
  cases members.field? name with
  | none => rfl
  | some v =>
    cases v with
    | string s =>
      change (match meaning s with | none => _ | some a => _) =
        (wordOf variant name meaning fault (.string s)).map some
      rw [wordOf]
      cases meaning s <;> rfl
    | _ => rfl

/-- A field that holds a condition is read by its value. -/
theorem nested_eq_read : (members.nested name fun v _ => g v) = members.read name g := by
  unfold nested read
  split <;> rename_i h <;> simp only [h]

/-- A field that holds a list of conditions is read by its value. -/
theorem nestedList_eq_read :
    (members.nestedList variant name fun v _ => g v) = members.read name (itemsOf variant name g) := by
  unfold nestedList read
  split
  · rename_i h
    simp only [h]
  · rename_i items h
    simp only [h, itemsOf]
    simp
  · rename_i v hne h
    simp only [h]
    cases v with
    | array items => exact absurd rfl (hne items)
    | _ => rfl

end Read

/-! ### What readers accept -/

section Accept

variable {α : Type} {g : Json → Except ConditionError α}

/-- A field is read if it fits the form that the reader of its value accepts. -/
theorem succeeds_read_iff (h : ∀ v, members.field? name = some v → (Succeeds (g v) ↔ HasForm form v)) :
    Succeeds (members.read name g) ↔ members.FieldFits name form := by
  unfold read FieldFits
  cases hv : members.field? name with
  | none => simp
  | some v => simp [h v hv]

/-- Just texts are read as texts. -/
theorem succeeds_textOf_iff {v : Json} : Succeeds (textOf variant name v) ↔ HasForm .string v := by
  constructor
  · intro h
    cases v with
    | string s => exact .text trivial
    | _ => exact absurd h (not_succeeds_error _)
  · rintro ⟨⟩
    exact succeeds_ok _

/-- Just truth values are read as truth values. -/
theorem succeeds_truthOf_iff {v : Json} : Succeeds (truthOf variant name v) ↔ HasForm .truth v := by
  constructor
  · intro h
    cases v with
    | bool b => exact .truth b
    | _ => exact absurd h (not_succeeds_error _)
  · rintro ⟨⟩
    exact succeeds_ok _

/-- A text is read as a word just if its meaning is known. -/
theorem succeeds_wordOf_iff {meaning : String → Option α} {known : String → Prop}
    (hknown : ∀ s, (meaning s).isSome ↔ known s) {fault : String → ConditionFault} {v : Json} :
    Succeeds (wordOf variant name meaning fault v) ↔ HasForm (.text known) v := by
  constructor
  · intro h
    cases v with
    | string s =>
      refine .text ((hknown s).1 ?_)
      rw [wordOf] at h
      cases hs : meaning s with
      | none =>
        rw [hs] at h
        exact absurd h (not_succeeds_error _)
      | some a => rfl
    | _ => exact absurd h (not_succeeds_error _)
  · rintro (_ | _ | hs)
    obtain ⟨a, ha⟩ := Option.isSome_iff_exists.1 ((hknown _).2 hs)
    rw [wordOf, ha]
    exact succeeds_ok a

/-- A list is read just if all of its items are. -/
theorem succeeds_mapM_iff {items : List Json} : Succeeds (items.mapM g) ↔ ∀ v ∈ items, Succeeds (g v) := by
  induction items with
  | nil => simp
  | cons v items ih =>
    simp [List.mapM_cons, succeeds_bind_iff, exists_eq_ok_iff, ih]

/-- A list is read just if its items are conditions of the family. -/
theorem succeeds_itemsOf_iff {f : Family} {v : Json}
    (h : ∀ items w, v = .array items → w ∈ items → (Succeeds (g w) ↔ f.WellFormed w)) :
    Succeeds (itemsOf variant name g v) ↔ HasForm (.trees f) v := by
  constructor
  · intro hg
    cases v with
    | array items =>
      rw [itemsOf, succeeds_mapM_iff] at hg
      exact .trees fun w hw => (h items w rfl hw).1 (hg w hw)
    | _ => exact absurd hg (not_succeeds_error _)
  · rintro (_ | _ | _ | _ | hitems)
    rw [itemsOf, succeeds_mapM_iff]
    exact fun w hw => (h _ w rfl hw).2 (hitems w hw)

end Accept

end Members

/-! ## Tags -/

namespace Family

variable {f : Family} {members : Members} {tag : String} {fields : Fields} {v : Json}

/-- A value has the form of a condition just if it is a condition of the family. -/
theorem hasForm_tree_iff : HasForm (.tree f) v ↔ f.WellFormed v := by
  constructor
  · rintro ⟨⟩
    assumption
  · exact .tree

/-- A value has the form of a known text just if it is such a text. -/
theorem hasForm_text_iff {known : String → Prop} :
    HasForm (.text known) v ↔ ∃ s, v = .string s ∧ known s := by
  constructor
  · rintro (_ | _ | ⟨h⟩)
    exact ⟨_, rfl, h⟩
  · rintro ⟨s, rfl, h⟩
    exact .text h

/-- An object is a condition just if the table of its family has its tag and its members fit the fields there.
-/
theorem wellFormed_object_iff : f.WellFormed (.object members) ↔ ∃ tag,
    Json.lookup "type" members = some (.string tag) ∧ ∃ fields, f.fields? members tag = some fields ∧
      members.Fit fields := by
  constructor
  · rintro ⟨htag, hfields, h⟩
    exact ⟨_, htag, _, hfields, h⟩
  · rintro ⟨tag, htag, fields, hfields, h⟩
    exact .object htag hfields h

end Family

/-- The tag is the text at `type`. -/
theorem Members.tag_eq_ok_iff {members : Members} {t : String} :
    members.tag = .ok t ↔ Json.lookup "type" members = some (.string t) := by
  unfold tag
  split
  · rename_i s h
    simp [h]
  · rename_i v hne h
    have hv : v ≠ .string t := hne t
    simp [h, hv]
  · rename_i h
    simp [h]

/-! ## Conditions -/

/-- A tag that names no connective is not in the table of the connectives. -/
theorem Family.meaning?_connectives {f : Family} {tag : String} (h₁ : tag ≠ "AllTrue")
    (h₂ : tag ≠ "AnyTrue") (h₃ : tag ≠ "Not") (h₄ : tag ≠ "Negation") (h₅ : tag ≠ "Either")
    (h₆ : tag ≠ "Implication") : Text.meaning? f.connectives tag = none := by
  simp only [connectives, Text.meaning?_cons, Text.meaning?_nil, if_neg h₁, if_neg h₂, if_neg h₃,
    if_neg h₄, if_neg h₅, if_neg h₆]

namespace Condition

variable {P : Type} {leaf : String → Members → Except ConditionError (Option P)}

/-- The leaf of a tag; a tag that belongs to no leaf is refused. -/
def leafOf (leaf : String → Members → Except ConditionError (Option P)) (tag : String) (members : Members) :
    Except ConditionError P := do
  match ← leaf tag members with
  | some predicate => pure predicate
  | none => throw (.unsupportedType tag)

/-- The parser of an object looks at its tag: the six connectives read their operands, and all other tags are
left to the family. -/
theorem ofJson_object (members : Members) : ofJson leaf (.object members) = do
    let tag ← members.tag
    let operand (name : String) := members.read name (ofJson leaf)
    let operands : Except ConditionError (List (Condition P)) :=
      (members.read "conditions" (Members.itemsOf tag "conditions" (ofJson leaf))).map (·.getD [])
    match tag with
    | "AllTrue" => return .allTrue (← operands)
    | "AnyTrue" => return .anyTrue (← operands)
    | "Not" => return .not (← operand "condition")
    | "Negation" => return .not (← operand "condition")
    | "Either" => return .either (← operand "first") (← operand "second")
    | "Implication" => return .implication (← operand "premise") (← operand "consequence")
    | tag => return .leaf (← leafOf leaf tag members) := by
  rw [ofJson]
  simp only [Members.nested_eq_read, Members.nestedList_eq_read]
  congr 1
  funext tag
  split
  case h_7 h₁ h₂ h₃ h₄ h₅ h₆ =>
    simp only [leafOf, bind_assoc]
    congr 1
    funext p
    cases p <;> rfl
  all_goals rfl

/-- A parser accepts just what its table describes, if its own tags do. -/
theorem succeeds_ofJson_iff {f : Family}
    (htable : ∀ members, f.table members = f.connectives ++ f.own members)
    (hleaf : ∀ tag members, Succeeds (leafOf leaf tag members) ↔
      ∃ fields, Text.meaning? (f.own members) tag = some fields ∧ members.Fit fields) (j : Json) :
    Succeeds (ofJson leaf j) ↔ f.WellFormed j := by
  induction hsize : sizeOf j using Nat.strong_induction_on generalizing j with
  | h n ih =>
    subst hsize
    cases j with
    | object members =>
      -- operands are smaller than the object that holds them
      have hoperand (name : String) :
          Succeeds (Members.read members name (ofJson leaf)) ↔ Members.FieldFits members name (.tree f) :=
        Members.succeeds_read_iff fun v hv =>
          (ih _ (Members.sizeOf_field? hv) v rfl).trans Family.hasForm_tree_iff.symm
      have hoperands (tag : String) : Succeeds (Members.read members "conditions"
          (Members.itemsOf tag "conditions" (ofJson leaf))) ↔
            Members.FieldFits members "conditions" (.trees f) := by
        refine Members.succeeds_read_iff fun v hv => Members.succeeds_itemsOf_iff ?_
        rintro items w rfl hw
        have hsize := Members.sizeOf_field? hv
        have hlt := List.sizeOf_lt_of_mem hw
        exact ih _ (by simp at hsize ⊢; omega) w rfl
      rw [ofJson_object, succeeds_bind_iff, Family.wellFormed_object_iff]
      simp only [Members.tag_eq_ok_iff]
      refine exists_congr fun tag => and_congr_right fun _ => ?_
      rw [Family.fields?, htable, Text.meaning?_append]
      split
      -- any tag but those of the connectives is left to the family
      case h_7 h₁ h₂ h₃ h₄ h₅ h₆ =>
        rw [Family.meaning?_connectives h₁ h₂ h₃ h₄ h₅ h₆, Option.none_or, ← hleaf]
        simp
      all_goals
        simp [Family.connectives, Text.meaning?_cons, succeeds_bind_iff, exists_eq_ok_iff, hoperand,
          hoperands]
    | _ =>
      constructor
      · intro h
        exact absurd h (by simp [ofJson])
      · rintro ⟨⟩

end Condition

/-! ### Leaves -/

section Leaves

open Condition Family

variable {members : Members} {tag : String}

/-- A field of words is read just if it is missing or holds a known word. -/
theorem succeeds_word_iff {α : Type} {name : String} {meaning : String → Option α} {known : String → Prop}
    (hknown : ∀ s, (meaning s).isSome ↔ known s) {fault : String → ConditionFault} :
    Succeeds (members.word tag name meaning fault) ↔ members.FieldFits name (.text known) := by
  rw [Members.word_eq_read]
  exact Members.succeeds_read_iff fun v _ => Members.succeeds_wordOf_iff hknown

/-- The kinds of nodes are known by the spellings of their words. -/
theorem succeeds_kind_iff : Succeeds (NodePredicate.kind members tag) ↔
    members.FieldFits "kind" (.word kindWords) :=
  succeeds_word_iff (Text.meaning?_plainWord_isSome_iff (by decide))

/-- The relations are known by the spellings of their words. -/
theorem succeeds_relation_iff : Succeeds (members.word tag "relation" RelationKind.ofWord? (.unknownRelation tag)) ↔
    members.FieldFits "relation" (.word relationWords) :=
  succeeds_word_iff (Text.meaning?_plainWord_isSome_iff (by decide))

/-- The comparisons are known by their spellings. -/
theorem succeeds_comparison_iff :
    Succeeds (members.word tag "comparisonResult" Comparison.ofWord? (.unknownComparison tag)) ↔
      members.FieldFits "comparisonResult" (.oneOf comparisonTexts) :=
  succeeds_word_iff fun _ => Text.meaning?_isSome_iff

/-- A source is a pattern if it is a regular expression between anchors. -/
theorem succeeds_pattern_iff {name : String} :
    Succeeds (members.pattern tag name) ↔ members.FieldFits name .pattern := by
  refine succeeds_word_iff fun s => ?_
  rw [Pattern.ofSource?, Option.isSome_map, Pattern.anchored]

/-- A field of texts is read just if it is missing or holds a text. -/
theorem succeeds_string_iff {name : String} :
    Succeeds (members.string tag name) ↔ members.FieldFits name .string := by
  rw [Members.string_eq_read]
  exact Members.succeeds_read_iff fun v _ => Members.succeeds_textOf_iff

/-- A field of truth values is read just if it is missing or holds one. -/
theorem succeeds_bool_iff {name : String} :
    Succeeds (members.bool tag name) ↔ members.FieldFits name .truth := by
  rw [Members.bool_eq_read]
  exact Members.succeeds_read_iff fun v _ => Members.succeeds_truthOf_iff

/-- A field of timestamps is read just if it is missing or holds one of the strict grammar. -/
theorem succeeds_timestamp_iff {name : String} :
    Succeeds (members.timestamp tag name) ↔ members.FieldFits name .time := by
  refine succeeds_word_iff fun s => ?_
  simp only [Option.isSome_iff_exists, Timestamp.ofStrictText?_eq_some_iff]
  exact exists_comm

/-- A constraint on names is read just if its fields fit. -/
theorem succeeds_nameConstraint_iff :
    Succeeds (NodePredicate.nameConstraint members tag) ↔ members.Fit nameFields := by
  simp [NodePredicate.nameConstraint, nameFields, succeeds_pattern_iff]

/-- A constraint on texts is read just if its fields fit. -/
theorem succeeds_textConstraint_iff :
    Succeeds (NodePredicate.textConstraint members tag) ↔ members.Fit textFields := by
  simp [NodePredicate.textConstraint, textFields, succeeds_pattern_iff, succeeds_bind_iff, exists_eq_ok_iff]

/-- A constraint on times is read just if its fields fit. -/
theorem succeeds_timeConstraint_iff :
    Succeeds (NodePredicate.timeConstraint members tag) ↔ members.Fit timeFields := by
  simp [NodePredicate.timeConstraint, timeFields, succeeds_timestamp_iff, succeeds_bind_iff, exists_eq_ok_iff]

/-- A constraint is read just if its kind is known and the fields of this kind fit. -/
theorem succeeds_constraintByKind_iff : Succeeds (NodePredicate.constraintByKind members tag) ↔
    members.FieldFits "kind" (.oneOf (valueKinds.map Prod.fst)) ∧
      members.Fit (fieldsOfKind (members.field? "kind")) := by
  unfold NodePredicate.constraintByKind
  rw [Members.string_eq_read, Members.read, Members.FieldFits]
  cases members.field? "kind" with
  | none => simp [ok_bind, fieldsOfKind]
  | some v =>
    cases v with
    | string s =>
      have hkind : HasForm (.oneOf (valueKinds.map Prod.fst)) (.string s) ↔
          s ∈ valueKinds.map Prod.fst := by
        simp [FieldForm.oneOf, hasForm_text_iff]
      simp only [Members.textOf, Except.map, ok_bind, Option.some.injEq, forall_eq', hkind]
      split <;> rename_i heq
      case h_1 => cases heq
      case h_5 =>
        rename_i h₁ h₂ h₃
        obtain rfl := Option.some_inj.1 heq
        have hunknown : s ∉ valueKinds.map Prod.fst := by
          simp only [valueKinds, List.map_cons, List.map_nil, List.mem_cons, List.not_mem_nil, or_false]
          rintro (h | h | h)
          · exact h₁ h
          · exact h₂ h
          · exact h₃ h
        simp [hunknown]
      all_goals
        obtain rfl := Option.some_inj.1 heq
        simp [valueKinds, fieldsOfKind, Text.meaning?_cons, succeeds_nameConstraint_iff,
          succeeds_textConstraint_iff, succeeds_timeConstraint_iff]
    | _ => simp [Members.textOf, Except.map, error_bind, FieldForm.oneOf, hasForm_text_iff]

/-- The own tags of conditions on nodes read the fields of the table. -/
theorem succeeds_leafOf_node_iff (tag : String) (members : Members) :
    Succeeds (leafOf NodePredicate.ofMembers tag members) ↔
      ∃ fields, Text.meaning? (Family.node.own members) tag = some fields ∧ members.Fit fields := by
  unfold leafOf NodePredicate.ofMembers
  split
  case h_9 h₁ h₂ h₃ h₄ h₅ h₆ h₇ h₈ =>
    simp only [own, Text.meaning?_cons, Text.meaning?_nil, if_neg h₁, if_neg h₂, if_neg h₃, if_neg h₄,
      if_neg h₅, if_neg h₆, if_neg h₇, if_neg h₈]
    simp
  all_goals
    simp [Family.own, Text.meaning?_cons, succeeds_bind_iff, exists_eq_ok_iff, NodePredicate.attributeUri,
      succeeds_kind_iff, succeeds_pattern_iff, succeeds_string_iff, succeeds_nameConstraint_iff,
      succeeds_textConstraint_iff, succeeds_timeConstraint_iff, succeeds_constraintByKind_iff]
  -- the kind is read before the attribute
  exact and_comm

/-- The parser of conditions on nodes accepts just what its table describes. -/
theorem succeeds_nodeOfJson_iff (j : Json) : Succeeds (nodeOfJson j) ↔ node.WellFormed j :=
  succeeds_ofJson_iff (fun _ => rfl) succeeds_leafOf_node_iff j

/-- The own tags of conditions on edges read the fields of the table. -/
theorem succeeds_leafOf_edge_iff (tag : String) (members : Members) :
    Succeeds (leafOf EdgePredicate.ofMembers tag members) ↔
      ∃ fields, Text.meaning? (Family.edge.own members) tag = some fields ∧ members.Fit fields := by
  unfold leafOf EdgePredicate.ofMembers
  split
  case h_3 h₁ h₂ =>
    simp only [own, Text.meaning?_cons, Text.meaning?_nil, if_neg h₁, if_neg h₂]
    simp
  all_goals simp [own, Text.meaning?_cons, succeeds_relation_iff]

/-- The parser of conditions on edges accepts just what its table describes. -/
theorem succeeds_edgeOfJson_iff (j : Json) : Succeeds (edgeOfJson j) ↔ edge.WellFormed j :=
  succeeds_ofJson_iff (fun _ => rfl) succeeds_leafOf_edge_iff j

/-- A field that holds a condition is read just if it is missing or holds one of the family. -/
theorem succeeds_nested_iff {α : Type} {f : Family} {g : Json → Except ConditionError α} {name : String}
    (h : ∀ v, members.field? name = some v → (Succeeds (g v) ↔ f.WellFormed v)) :
    Succeeds (members.nested name fun v _ => g v) ↔ members.FieldFits name (.tree f) := by
  rw [Members.nested_eq_read]
  exact Members.succeeds_read_iff fun v hv => (h v hv).trans hasForm_tree_iff.symm

/-- The own tags of conditions on steps read the fields of the table. -/
theorem succeeds_leafOf_step_iff (tag : String) (members : Members) :
    Succeeds (leafOf StepPredicate.ofMembers tag members) ↔
      ∃ fields, Text.meaning? (Family.step.own members) tag = some fields ∧ members.Fit fields := by
  have hedge := @succeeds_nested_iff members _ .edge edgeOfJson "edgeCondition" fun v _ =>
    succeeds_edgeOfJson_iff v
  have hnode := @succeeds_nested_iff members _ .node nodeOfJson "nodeCondition" fun v _ =>
    succeeds_nodeOfJson_iff v
  unfold leafOf StepPredicate.ofMembers
  split
  case h_3 h₁ h₂ =>
    simp only [own, Text.meaning?_cons, Text.meaning?_nil, if_neg h₁, if_neg h₂]
    simp
  all_goals
    simp [own, Text.meaning?_cons, succeeds_bind_iff, exists_eq_ok_iff, succeeds_bool_iff, hedge, hnode]

/-- The parser of conditions on steps accepts just what its table describes. -/
theorem succeeds_stepOfJson_iff (j : Json) : Succeeds (stepOfJson j) ↔ step.WellFormed j :=
  succeeds_ofJson_iff (fun _ => rfl) succeeds_leafOf_step_iff j

/-- The parser of searches accepts just what its table describes, searches in searches included. -/
theorem succeeds_findable_iff (j : Json) : Succeeds (Findable.ofJson j) ↔ findable.WellFormed j := by
  induction hsize : sizeOf j using Nat.strong_induction_on generalizing j with
  | h n ih =>
    subst hsize
    cases j with
    | object members =>
      -- only the searches to start from are searches again
      have hstarts := @succeeds_nested_iff members _ .findable Findable.ofJson "startsIn" fun v hv =>
        ih _ (Members.sizeOf_field? hv) v rfl
      have hnode := @succeeds_nested_iff members _ .node nodeOfJson "nodeCondition" fun v _ =>
        succeeds_nodeOfJson_iff v
      have hfilter := @succeeds_nested_iff members _ .step stepOfJson "filter" fun v _ =>
        succeeds_stepOfJson_iff v
      have hparts (tag : String) :
          Succeeds (Members.nestedList members tag "graphParts" fun v _ => stepOfJson v) ↔
            Members.FieldFits members "graphParts" (.trees .step) := by
        rw [Members.nestedList_eq_read]
        exact Members.succeeds_read_iff fun v _ =>
          Members.succeeds_itemsOf_iff fun _ w _ _ => succeeds_stepOfJson_iff w
      rw [Findable.ofJson, succeeds_bind_iff, wellFormed_object_iff]
      simp only [Members.tag_eq_ok_iff]
      refine exists_congr fun tag => and_congr_right fun _ => ?_
      rw [fields?, table, own]
      split
      case h_7 h₁ h₂ h₃ h₄ h₅ h₆ =>
        simp only [searches, Text.meaning?_cons, Text.meaning?_nil, if_neg h₁, if_neg h₂, if_neg h₃,
          if_neg h₄, if_neg h₅, if_neg h₆]
        simp
      all_goals
        simp [searches, Text.meaning?_cons, succeeds_bind_iff, exists_eq_ok_iff, succeeds_bool_iff, hstarts,
          hnode, hfilter, hparts]
    | _ =>
      constructor
      · intro h
        exact absurd h (by simp [Findable.ofJson])
      · rintro ⟨⟩

/-- A constant is read just if it is a natural number. -/
theorem succeeds_count_iff {v : Json} : Succeeds (match Json.natural? v with
    | some n => pure (Countable.constant (some n))
    | none => throw (Members.invalid "CountConstant" "count" v)) ↔ HasForm .natural v := by
  constructor
  · intro h
    cases v with
    | number n =>
      cases n with
      | natural n => exact .natural n
      | _ => exact absurd h (not_succeeds_throw _)
    | _ => exact absurd h (not_succeeds_throw _)
  · rintro ⟨⟩
    exact succeeds_pure _

/-- The parser of measures accepts just what its table describes. -/
theorem succeeds_countable_iff (j : Json) : Succeeds (Countable.ofJson j) ↔ countable.WellFormed j := by
  cases j with
  | object members =>
    rw [Countable.ofJson, succeeds_bind_iff, wellFormed_object_iff]
    simp only [Members.tag_eq_ok_iff]
    refine exists_congr fun tag => and_congr_right fun htag => ?_
    rw [fields?, table, own, Text.meaning?_cons]
    split
    case h_1 =>
      simp only [reduceIte, Option.some.injEq, exists_eq_left', Members.fit_cons_iff, Members.fit_nil,
        and_true, Members.FieldFits]
      cases Members.field? members "count" with
      | none => simp
      | some v =>
        simp only [Option.some.injEq, forall_eq']
        exact succeeds_count_iff
    case h_2 h =>
      rw [if_neg h, bind_pure_comp, succeeds_fmap_iff, succeeds_findable_iff, wellFormed_object_iff]
      constructor
      · rintro ⟨tag', htag', hfields⟩
        obtain rfl : tag = tag' := by simpa [htag] using htag'
        exact hfields
      · exact fun hfields => ⟨tag, htag, hfields⟩
  | _ =>
    constructor
    · intro h
      exact absurd h (by simp [Countable.ofJson])
    · rintro ⟨⟩

/-- The own tags of conditions on bundles read the fields of the table. -/
theorem succeeds_leafOf_bundle_iff (tag : String) (members : Members) :
    Succeeds (leafOf BundlePredicate.ofMembers tag members) ↔
      ∃ fields, Text.meaning? (Family.bundle.own members) tag = some fields ∧ members.Fit fields := by
  have hnode := @succeeds_nested_iff members _ .node nodeOfJson "condition" fun v _ =>
    succeeds_nodeOfJson_iff v
  have hfirst := @succeeds_nested_iff members _ .countable Countable.ofJson "first" fun v _ =>
    succeeds_countable_iff v
  have hsecond := @succeeds_nested_iff members _ .countable Countable.ofJson "second" fun v _ =>
    succeeds_countable_iff v
  unfold leafOf BundlePredicate.ofMembers
  split
  case h_3 h₁ h₂ =>
    simp only [own, Text.meaning?_cons, Text.meaning?_nil, if_neg h₁, if_neg h₂]
    simp
  all_goals
    simp [own, Text.meaning?_cons, succeeds_bind_iff, exists_eq_ok_iff, succeeds_comparison_iff, hnode,
      hfirst, hsecond]

/-- The parser of conditions on bundles accepts just what its table describes. -/
theorem succeeds_bundleOfJson_iff (j : Json) : Succeeds (bundleOfJson j) ↔ bundle.WellFormed j :=
  succeeds_ofJson_iff (fun _ => rfl) succeeds_leafOf_bundle_iff j

end Leaves

namespace Family

/-- **Every parser accepts just what its table describes.** -/
theorem succeeds_ofJson_iff (f : Family) (j : Json) : Succeeds (f.ofJson j) ↔ f.WellFormed j := by
  cases f with
  | node => exact succeeds_nodeOfJson_iff j
  | edge => exact succeeds_edgeOfJson_iff j
  | step => exact succeeds_stepOfJson_iff j
  | bundle => exact succeeds_bundleOfJson_iff j
  | findable => exact succeeds_findable_iff j
  | countable => exact succeeds_countable_iff j

end Family

end ProvenanceTrail
