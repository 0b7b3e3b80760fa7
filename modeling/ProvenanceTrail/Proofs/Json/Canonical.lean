import Mathlib.Data.List.Induction
import Mathlib.Data.List.Nodup
import ProvenanceTrail.Proofs.Json.Reading
import ProvenanceTrail.Proofs.Text.Bytes

/-!
# The canonical form

The canonical text of a value has no white space between lexemes, and what is read from it is the value
with the keys of every object in ascending order (`isCanonical_canonical`). Keys are sorted as texts;
this is the order of their bytes (`Text.bytes_lt_bytes_iff`).
-/

namespace ProvenanceTrail.Json

open JsonNumber

/-- The keys of every object, at every depth, ascend in the order of their bytes. -/
inductive Ascending : Json → Prop
  | null : Ascending .null
  | bool (b : Bool) : Ascending (.bool b)
  | number (n : JsonNumber) : Ascending (.number n)
  | string (s : String) : Ascending (.string s)
  | array {items : List Json} (h : ∀ v ∈ items, Ascending v) : Ascending (.array items)
  | object {members : List (String × Json)}
    (hk : members.Pairwise fun m m' => Text.bytes m.1 < Text.bytes m'.1)
    (h : ∀ m ∈ members, Ascending m.2) : Ascending (.object members)

section Members

variable {α : Type} {key : String} {value : α} {m : String × α} {members : List (String × α)}

/-- Entering a member keeps the keys ascending. -/
theorem pairwise_insertMember (h : members.Pairwise fun m m' => m.1 < m'.1) :
    (insertMember key value members).Pairwise fun m m' => m.1 < m'.1 := by
  induction members with
  | nil => exact List.pairwise_singleton _ _
  | cons other rest ih =>
    obtain ⟨k, v⟩ := other
    obtain ⟨hhead, hrest⟩ := List.pairwise_cons.1 h
    unfold insertMember
    split_ifs with hlt heq
    · refine List.pairwise_cons.2 ⟨fun m hm => ?_, h⟩
      rcases List.mem_cons.1 hm with rfl | hm
      · exact hlt
      · exact hlt.trans (hhead m hm)
    · subst heq
      exact List.pairwise_cons.2 ⟨hhead, hrest⟩
    · have hgt : k < key := lt_of_le_of_ne (not_lt.1 hlt) (Ne.symm heq)
      refine List.pairwise_cons.2 ⟨fun m hm => ?_, ih hrest⟩
      rcases mem_insertMember hm with rfl | hm
      · exact hgt
      · exact hhead m hm

theorem insertMember_nil : insertMember key value [] = [(key, value)] := rfl

theorem insertMember_of_lt {k : String} {v : α} (h : key < k) :
    insertMember key value ((k, v) :: members) = (key, value) :: (k, v) :: members := by
  rw [insertMember, if_pos h]

theorem insertMember_of_gt {k : String} {v : α} (h : k < key) :
    insertMember key value ((k, v) :: members) = (k, v) :: insertMember key value members := by
  rw [insertMember, if_neg h.not_gt, if_neg h.ne']

/-- The last member is entered among the others sorted. -/
theorem sortMembers_append_singleton (m : String × α) :
    sortMembers (members ++ [m]) = insertMember m.1 m.2 (sortMembers members) := by
  simp [sortMembers]

/-- Sorted members have ascending keys. -/
theorem pairwise_sortMembers (members : List (String × α)) :
    (sortMembers members).Pairwise fun m m' => m.1 < m'.1 := by
  induction members using List.reverseRecOn with
  | nil => exact List.Pairwise.nil
  | append_singleton members m ih =>
    rw [sortMembers_append_singleton]
    exact pairwise_insertMember ih

/-- Every sorted member is one of the members. -/
theorem mem_of_mem_sortMembers (h : m ∈ sortMembers members) : m ∈ members := by
  induction members using List.reverseRecOn with
  | nil => exact h
  | append_singleton members m' ih =>
    rw [sortMembers_append_singleton] at h
    rcases mem_insertMember h with rfl | h
    · exact List.mem_append_right _ (List.mem_singleton_self _)
    · exact List.mem_append_left _ (ih h)

/-- A list with ascending keys holds after an insertion the member that was put in, and those with other
keys. -/
theorem mem_insertMember_iff (h : members.Pairwise fun m m' => m.1 < m'.1) :
    m ∈ insertMember key value members ↔ m = (key, value) ∨ m.1 ≠ key ∧ m ∈ members := by
  induction members with
  | nil => simp [insertMember]
  | cons other rest ih =>
    obtain ⟨k, v⟩ := other
    obtain ⟨hhead, hrest⟩ := List.pairwise_cons.1 h
    have hmem {m : String × α} (hm : m ∈ (k, v) :: rest) : k ≤ m.1 := by
      rcases List.mem_cons.1 hm with rfl | hm
      · exact le_refl _
      · exact (hhead m hm).le
    unfold insertMember
    split_ifs with hlt heq
    · -- the key goes before all others, none of which it equals
      rw [List.mem_cons]
      exact or_congr_right ⟨fun hm => ⟨(hlt.trans_le (hmem hm)).ne', hm⟩, And.right⟩
    · subst heq
      rw [List.mem_cons, List.mem_cons]
      refine or_congr_right ⟨fun hm => ⟨(hhead m hm).ne', .inr hm⟩, fun hm => hm.2.resolve_left ?_⟩
      rintro rfl
      exact hm.1 rfl
    · rw [List.mem_cons, List.mem_cons, ih hrest]
      constructor
      · rintro (rfl | hm | ⟨hne, hm⟩)
        · exact .inr ⟨fun h => heq h.symm, .inl rfl⟩
        · exact .inl hm
        · exact .inr ⟨hne, .inr hm⟩
      · rintro (hm | ⟨hne, rfl | hm⟩)
        · exact .inr (.inl hm)
        · exact .inl rfl
        · exact .inr (.inr ⟨hne, hm⟩)

end Members

section Lookup

variable {key : String} {v : Json} {members : List (String × Json)}

/-- The last member of a key is the one looked up. -/
theorem lookup_append_singleton (m : String × Json) :
    lookup key (members ++ [m]) = if m.1 = key then some m.2 else lookup key members := by
  by_cases h : m.1 = key
  · simp [lookup, h]
  · simp [lookup, h]

/-- Where each key is written once, the value of a key is that of its only member. -/
theorem lookup_eq_some_iff (h : (members.map Prod.fst).Nodup) :
    lookup key members = some v ↔ (key, v) ∈ members := by
  induction members using List.reverseRecOn with
  | nil => simp [lookup]
  | append_singleton members m ih =>
    rw [List.map_append, List.map_singleton, List.nodup_append] at h
    obtain ⟨hbefore, -, hnew⟩ := h
    rw [lookup_append_singleton, List.mem_append, List.mem_singleton]
    by_cases hm : m.1 = key
    · have hnone : (key, v) ∉ members := fun hmem =>
        hnew key (List.mem_map_of_mem hmem) m.1 (List.mem_singleton_self _) hm.symm
      simp [hm, hnone, Prod.ext_iff, eq_comm]
    · simp [hm, ih hbefore, Prod.ext_iff, Ne.symm hm]

/-- Of the members with a key, the one that is written last stays. -/
theorem mem_sortMembers_iff : (key, v) ∈ sortMembers members ↔ lookup key members = some v := by
  induction members using List.reverseRecOn with
  | nil => simp [sortMembers, lookup]
  | append_singleton members m ih =>
    rw [sortMembers_append_singleton, mem_insertMember_iff (pairwise_sortMembers members), ih,
      lookup_append_singleton, Prod.mk.injEq]
    by_cases h : m.1 = key
    · simp [h, eq_comm]
    · simp [h, Ne.symm h]

/-- No key occurs twice among sorted members. -/
theorem nodup_sortMembers (members : List (String × Json)) :
    ((sortMembers members).map Prod.fst).Nodup :=
  List.pairwise_map.2 ((pairwise_sortMembers members).imp ne_of_lt)

/-- Sorting members that have different keys keeps all of them. -/
theorem sortMembers_perm (h : (members.map Prod.fst).Nodup) : (sortMembers members).Perm members := by
  apply (List.perm_ext_iff_of_nodup (nodup_sortMembers members).of_map h.of_map).2
  intro m
  rw [mem_sortMembers_iff, lookup_eq_some_iff h]

/-- Sorting the members changes no value of a key. -/
theorem lookup_sortMembers (key : String) (members : List (String × Json)) :
    lookup key (sortMembers members) = lookup key members :=
  Option.ext fun _ => (lookup_eq_some_iff (nodup_sortMembers members)).trans mem_sortMembers_iff

end Lookup

mutual
/-- A value in canonical order has ascending keys at every depth. -/
theorem ascending_normalize : ∀ v : Json, v.normalize.Ascending
  | .null => .null
  | .bool b => .bool b
  | .number n => .number n
  | .string s => .string s
  | .array items => .array (ascending_normalizeItems items)
  | .object members =>
    .object ((pairwise_sortMembers _).imp fun h => Text.bytes_lt_bytes_iff.2 h)
      fun m hm => ascending_normalizeMembers members m (mem_of_mem_sortMembers hm)
termination_by structural v => v

/-- The items of a list in canonical order have ascending keys. -/
theorem ascending_normalizeItems : ∀ items : List Json, ∀ v ∈ normalizeItems items, v.Ascending
  | [] => fun _ hv => absurd hv List.not_mem_nil
  | v :: rest => List.forall_mem_cons.2 ⟨ascending_normalize v, ascending_normalizeItems rest⟩
termination_by structural items => items

/-- The members of an object in canonical order have values with ascending keys. -/
theorem ascending_normalizeMembers :
    ∀ members : List (String × Json), ∀ m ∈ normalizeMembers members, m.2.Ascending
  | [] => fun _ hm => absurd hm List.not_mem_nil
  | (_, v) :: rest =>
    List.forall_mem_cons.2 ⟨ascending_normalize v, ascending_normalizeMembers rest⟩
termination_by structural members => members
end

/-- Every item in canonical order is the canonical order of an item. -/
theorem mem_normalizeItems {items : List Json} {w : Json} (h : w ∈ normalizeItems items) :
    ∃ v ∈ items, v.normalize = w := by
  induction items with
  | nil => exact absurd h List.not_mem_nil
  | cons v items ih =>
    rcases List.mem_cons.1 h with rfl | h
    · exact ⟨v, List.mem_cons_self, rfl⟩
    · obtain ⟨v, hv, rfl⟩ := ih h
      exact ⟨v, List.mem_cons_of_mem _ hv, rfl⟩

/-- Every member in canonical order has the value of a member in canonical order. -/
theorem mem_normalizeMembers {members : List (String × Json)} {m : String × Json}
    (h : m ∈ normalizeMembers members) : ∃ v, (m.1, v) ∈ members ∧ v.normalize = m.2 := by
  induction members with
  | nil => exact absurd h List.not_mem_nil
  | cons other members ih =>
    rcases List.mem_cons.1 h with rfl | h
    · exact ⟨other.2, List.mem_cons_self, rfl⟩
    · obtain ⟨v, hv, hm⟩ := ih h
      exact ⟨v, List.mem_cons_of_mem _ hv, hm⟩

/-- Canonical order keeps a value within its depth. -/
theorem Within.normalize {P : JsonNumber → Prop} {d : Nat} {v : Json} (h : Within P d v) :
    Within P d v.normalize := by
  induction h with
  | null => exact .null
  | bool b => exact .bool b
  | number hn => exact .number hn
  | string s => exact .string s
  | array h ih =>
    refine .array fun w hw => ?_
    obtain ⟨v, hv, rfl⟩ := mem_normalizeItems hw
    exact ih v hv
  | object h ih =>
    refine .object fun m hm => ?_
    obtain ⟨v, hv, hvm⟩ := mem_normalizeMembers (mem_of_mem_sortMembers hm)
    exact hvm ▸ ih _ hv

/-- What a text is in canonical form: it holds no white space between lexemes, and what is read from
it has the keys of every object in ascending order. -/
structure IsCanonical (text : String) (v : Json) : Prop where
  compact : ∀ c ∈ Lexeme.outer false text.toList, Lexeme.isSpace c = false
  read : read? text = some v
  ascending : v.Ascending

/-- The canonical text of a value of integers is in canonical form. -/
theorem isCanonical_canonical {v : Json} (h : Within IsInteger maxDepth v) :
    IsCanonical v.canonical v.normalize where
  compact := by
    rw [canonical, String.toList_ofList]
    exact h.normalize.written.isSpace_outer
  read := read?_render h.normalize
  ascending := ascending_normalize v

end ProvenanceTrail.Json
