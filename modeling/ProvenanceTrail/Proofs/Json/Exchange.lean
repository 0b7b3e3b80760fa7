import ProvenanceTrail.Proofs.Json.Canonical
import ProvenanceTrail.Proofs.Json.Form

/-!
# Reading what was written

A kind of data has a reader and a writer. Readers take more than writers give: other spellings, arrays of
fields, fields that are left out, and other members, which are skipped. A kind of data round-trips
(`Json.RoundTrips`) when a value that was read is read again, as the same value, from what is written of it.
For values this is `Json.ReadsBack`, which is put together from the fields of records and the items of lists;
for texts it follows where what is written is made of integers, is nested no deeper than the reader of texts
allows, and has nothing that is skipped.
-/

namespace ProvenanceTrail.Json

open JsonNumber

variable {α : Type} {read read' : Json → Option α} {write : α → Json}

/-- What one reader reads, another one reads again from what is written of it. -/
def ReadsAs (read read' : Json → Option α) (write : α → Json) : Prop :=
  ∀ v a, read v = some a → read' (write a) = some a

/-- A value that was read is read again from what is written of it. -/
def ReadsBack (read : Json → Option α) (write : α → Json) : Prop := ReadsAs read read write

/-- What is written as a text. -/
def writeText (write : α → Json) (a : α) : String := String.ofList (write a).render

/-- What was read is read again from what is written of it, as a JSON value and as a text, and is then
written in the same way. -/
structure RoundTrips (read : Json → Option α) (ofText? : String → Option α) (write : α → Json) : Prop where
  value : ReadsBack read write
  text : ∀ text a, ofText? text = some a → ofText? (writeText write a) = some a
  again : ∀ text a b, ofText? text = some a → ofText? (writeText write a) = some b →
    write b = write a ∧ writeText write b = writeText write a

/-- It is enough that what was read from a text is read again from its own. -/
theorem RoundTrips.of_text {ofText? : String → Option α} (h : ReadsBack read write)
    (htext : ∀ text a, ofText? text = some a → ofText? (writeText write a) = some a) :
    RoundTrips read ofText? write := by
  refine ⟨h, htext, fun text a b ha hb => ?_⟩
  obtain rfl := Option.some_inj.1 ((htext text a ha).symm.trans hb)
  exact ⟨rfl, rfl⟩

/-- A reader that reads back what is written makes texts round trip, where it writes integers and its form
leaves what is written as it is. -/
theorem ReadsBack.roundTrips {form : Form} (h : ReadsBack read write)
    (hwithin : ∀ {n v a}, Within InRange n v → read v = some a → Within IsInteger maxDepth (write a))
    (hleaves : ∀ {n v a}, Within InRange n v → read v = some a → form.Leaves (write a) (write a).lexemes) :
    RoundTrips read (readText? form read) write := by
  refine .of_text h fun text a ha => ?_
  obtain ⟨v, hv, hread⟩ := Option.bind_eq_some_iff.1 ha
  have hwritten := hwithin (readAs?_within hv) hread
  rw [readText?, writeText, readAs?_render hwritten hwritten (hleaves (readAs?_within hv) hread), Option.bind_some]
  exact h v a hread

/-! ## Fields and items -/

section Fields

variable {field : Option Json} {a : α} {o : Option α} {as : List α}

/-- A required member that is read is read again from what is written. -/
theorem ReadsAs.required (h : ReadsAs read read' write) (ha : required? read field = some a) :
    read' (write a) = some a := by
  obtain ⟨v, -, hv⟩ := required?_eq_some_iff.1 ha
  exact h v a hv

/-- A member that is present is read as its value, where null is no value. -/
theorem optional?_some_eq (hnull : read .null = none) {v : Json} (hv : read v = some a) :
    optional? read (some v) = some (some a) := by
  have hne : v ≠ .null := by
    rintro rfl
    rw [hnull] at hv
    cases hv
  rw [optional?, hv, Option.map_some]
  rintro rfl
  exact hne rfl

/-- Optional values are read as they were written, whether a missing value is written as `null` or left
out. -/
theorem optional?_write (hread : ∀ a, read (write a) = some a) (hnull : read .null = none) (o : Option α) :
    optional? read (some (ofOption write o)) = some o ∧ optional? read (o.map write) = some o := by
  cases o with
  | none => exact ⟨rfl, rfl⟩
  | some a => exact ⟨optional?_some_eq hnull (hread a), optional?_some_eq hnull (hread a)⟩

/-- A list is read just if the value is an array all of whose items are read. -/
theorem list?_eq_some_iff {v : Json} :
    list? read v = some as ↔ ∃ items, v = .array items ∧ items.mapM read = some as := by
  unfold list?
  split
  · rename_i items
    simp
  · rename_i h
    simp only [reduceCtorEq, false_iff]
    rintro ⟨items, rfl, -⟩
    exact h items rfl

/-- Every result of a traversal comes of an item. -/
theorem exists_of_mapM_eq_some {β : Type} {f : β → Option α} {bs : List β} (h : bs.mapM f = some as)
    (ha : a ∈ as) : ∃ b ∈ bs, f b = some a := by
  induction bs generalizing as with
  | nil =>
    obtain rfl := Option.some_inj.1 h
    cases ha
  | cons b bs ih =>
    rw [List.mapM_cons] at h
    obtain ⟨a', hb, h⟩ := Option.bind_eq_some_iff.1 h
    obtain ⟨as', hbs, h⟩ := Option.bind_eq_some_iff.1 h
    obtain rfl := Option.some_inj.1 h
    rcases List.mem_cons.1 ha with rfl | ha
    · exact ⟨b, List.mem_cons_self, hb⟩
    · obtain ⟨b', hb', hf⟩ := ih hbs ha
      exact ⟨b', List.mem_cons_of_mem _ hb', hf⟩

/-- Items that are read back one by one are read back together. -/
theorem mapM_map_eq_some {β : Type} {f : β → Option α} {g : α → β} (h : ∀ a ∈ as, f (g a) = some a) :
    (as.map g).mapM f = some as := by
  induction as with
  | nil => rfl
  | cons a as ih =>
    rw [List.map_cons, List.mapM_cons, h a List.mem_cons_self, ih fun a ha => h a (List.mem_cons_of_mem _ ha)]
    rfl

/-- A list whose items are read back is read back. -/
theorem list?_map (h : ∀ a, read (write a) = some a) (as : List α) :
    list? read (.array (as.map write)) = some as :=
  list?_eq_some_iff.2 ⟨_, rfl, mapM_map_eq_some fun a _ => h a⟩

/-- A list is read again from what is written, where its items are. -/
theorem ReadsAs.list (h : ReadsAs read read' write) :
    ReadsAs (list? read) (list? read') (fun as => .array (as.map write)) := by
  intro v as has
  obtain ⟨items, rfl, hitems⟩ := list?_eq_some_iff.1 has
  refine list?_eq_some_iff.2 ⟨_, rfl, mapM_map_eq_some fun a ha => ?_⟩
  obtain ⟨v, -, hv⟩ := exists_of_mapM_eq_some hitems ha
  exact h v a hv

/-- A field that may be left out is always written. -/
theorem ReadsAs.defaulted {default : α} (h : ReadsAs read read' write)
    (hdefault : read' (write default) = some default) (ha : defaulted? read default field = some a) :
    read' (write a) = some a := by
  cases field with
  | none =>
    obtain rfl := Option.some_inj.1 ha
    exact hdefault
  | some v => exact h v a ha

/-- 64-bit integers are read back from the numbers that write them. -/
theorem integer64_readsBack : ReadsBack integer64? ofInt := by
  intro v i h
  unfold integer64? at h
  split at h
  case h_1 n =>
    obtain ⟨hn, hi⟩ := Option.ite_none_right_eq_some.1 h
    obtain rfl := Option.some_inj.1 hi
    exact if_pos hn
  case h_2 n =>
    obtain rfl := Option.some_inj.1 h
    cases n <;> rfl
  case h_3 => cases h

end Fields

/-! ## Depth -/

section Depth

variable {P : JsonNumber → Prop} {d : Nat}

@[simp]
theorem within_string (s : String) : Within P d (.string s) := .string s

@[simp]
theorem within_bool (b : Bool) : Within P d (.bool b) := .bool b

/-- An object is within a depth just if the values of its members are within one less. -/
theorem within_object_iff {members : List (String × Json)} :
    Within P (d + 1) (.object members) ↔ ∀ m ∈ members, Within P d m.2 := by
  constructor
  · rintro (_ | _ | _ | _ | _ | h)
    exact h
  · exact .object

/-- A written list is within a depth, where its items are within one less. -/
theorem within_array_map (h : ∀ a, Within P d (write a)) (as : List α) :
    Within P (d + 1) (.array (as.map write)) := by
  refine .array fun v hv => ?_
  obtain ⟨a, -, rfl⟩ := List.mem_map.1 hv
  exact h a

/-- An optional value is within a depth, where the value is. -/
theorem within_ofOption (h : ∀ a, Within P d (write a)) (o : Option α) :
    Within P d (ofOption write o) := by
  cases o with
  | none => exact .null
  | some a => exact h a

end Depth

/-! ## Members in ascending order -/

section Members

variable {key : String} {a : α} {members : List (String × α)}

/-- A key beyond all others goes to the end. -/
theorem insertMember_of_forall_lt (h : ∀ m ∈ members, m.1 < key) :
    insertMember key a members = members ++ [(key, a)] := by
  induction members with
  | nil => rfl
  | cons m members ih =>
    obtain ⟨hm, hmembers⟩ := List.forall_mem_cons.1 h
    rw [insertMember_of_gt hm, ih hmembers, List.cons_append]

/-- Members that are in order stay as they are. -/
theorem sortMembers_eq_self (h : members.Pairwise fun m m' => m.1 < m'.1) : sortMembers members = members := by
  induction members using List.reverseRecOn with
  | nil => rfl
  | append_singleton members m ih =>
    obtain ⟨hmembers, -, hlast⟩ := List.pairwise_append.1 h
    rw [sortMembers_append_singleton, ih hmembers]
    exact insertMember_of_forall_lt fun m' hm' => hlast m' hm' m (List.mem_singleton_self m)

end Members

end ProvenanceTrail.Json
