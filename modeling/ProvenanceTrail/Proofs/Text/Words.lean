import ProvenanceTrail.Proofs.Text.Letters
import ProvenanceTrail.Text.Word

/-!
# Spellings of words

A table of words knows exactly the words in it. A word of a vocabulary may also be spelled freely: in any case,
and with `PROV_` in front (`Text.Spells`). Such a text is looked up in small letters and without the front.
As no word of a vocabulary begins with that front itself, only the spellings of its words are known
(`Text.meaning?_plainWord_isSome_iff`).
-/

namespace ProvenanceTrail.Text

/-- A text spells a word: it is the word up to case, or `PROV_` and the word up to case. -/
def Spells (word s : String) : Prop :=
  SameUpToCase s word ∨ ∃ t, s = "PROV_" ++ t ∧ SameUpToCase t word

/-- A word of a vocabulary has no capital letters, and does not begin as a front in small letters does. -/
def IsPlain (word : String) : Prop :=
  word.toList.map Char.toLower = word.toList ∧ ¬ "prov_".toList <+: word.toList

instance : DecidablePred IsPlain := fun _ => inferInstanceAs (Decidable (_ ∧ _))

section Tables

variable {α : Type} {table : List (String × α)} {word : String} {a : α}

theorem meaning?_nil : meaning? ([] : List (String × α)) word = none := rfl

theorem meaning?_cons {entry : String × α} :
    meaning? (entry :: table) word = if word = entry.1 then some entry.2 else meaning? table word := by
  by_cases h : word = entry.1
  · rw [if_pos h, meaning?, List.find?_cons_of_pos (by simp [h]), Option.map_some]
  · rw [if_neg h, meaning?, List.find?_cons_of_neg (by simpa using Ne.symm h), meaning?]

/-- A table is looked at before the one behind it. -/
theorem meaning?_append {table' : List (String × α)} :
    meaning? (table ++ table') word = (meaning? table word).or (meaning? table' word) := by
  simp [meaning?, Option.map_or]

/-- A table knows the words in it. -/
theorem meaning?_isSome_iff : (meaning? table word).isSome ↔ word ∈ table.map Prod.fst := by
  rw [meaning?, Option.isSome_map, List.find?_isSome, List.mem_map]
  simp only [beq_iff_eq]

end Tables

/-! ## Free spellings -/

/-- A front is taken off just where the text starts with it. -/
theorem afterFront?_eq_some_iff {front cs rest : List Char} :
    afterFront? front cs = some rest ↔ cs = front ++ rest := by
  induction front generalizing cs with
  | nil => simp [afterFront?]
  | cons w front ih =>
    cases cs with
    | nil => simp [afterFront?]
    | cons c cs =>
      rw [afterFront?]
      split_ifs with h
      · simp [h, ih]
      · simp [Ne.symm h]

/-- A text is looked up as a plain word just if it spells the word. -/
theorem plainWord_eq_iff {s word : String} (hword : IsPlain word) : plainWord s = word ↔ Spells word s := by
  obtain ⟨hsmall, hfront⟩ := hword
  have hsame {cs : List Char} :
      String.ofList (cs.map Char.toLower) = word ↔ SameUpToCase (String.ofList cs) word := by
    rw [sameUpToCase_iff, hsmall, String.toList_ofList, ← String.toList_inj, String.toList_ofList]
  have hchars : "PROV_".toList = ['P', 'R', 'O', 'V', '_'] := rfl
  rw [plainWord, hsame, Spells]
  cases hafter : afterFront? ['P', 'R', 'O', 'V', '_'] s.toList with
  | none =>
    rw [Option.getD_none, String.ofList_toList, or_iff_left]
    rintro ⟨t, rfl, -⟩
    rw [String.toList_append, hchars, afterFront?_eq_some_iff.2 rfl] at hafter
    cases hafter
  | some rest =>
    obtain rfl : s = "PROV_" ++ String.ofList rest := by
      rw [← String.toList_inj, afterFront?_eq_some_iff.1 hafter]
      simp
    -- with the front in it, the text is no plain word
    have hnot : ¬ SameUpToCase ("PROV_" ++ String.ofList rest) word := by
      rw [sameUpToCase_iff, hsmall]
      intro h
      refine hfront ⟨rest.map Char.toLower, ?_⟩
      have hrest : (String.ofList rest).toList = rest := String.toList_ofList
      rw [← h, String.toList_append, hrest, List.map_append, hchars]
      rfl
    rw [Option.getD_some, or_iff_right hnot]
    constructor
    · exact fun h => ⟨_, rfl, h⟩
    · rintro ⟨t, ht, h⟩
      rw [← String.toList_inj, String.toList_append, String.toList_append] at ht
      rwa [String.toList_inj.1 (List.append_cancel_left ht)]

/-- A table of plain words knows the texts that spell one of them. -/
theorem meaning?_plainWord_isSome_iff {α : Type} {table : List (String × α)}
    (hplain : ∀ word ∈ table.map Prod.fst, IsPlain word) (s : String) :
    (meaning? table (plainWord s)).isSome ↔ ∃ word ∈ table.map Prod.fst, Spells word s := by
  rw [meaning?_isSome_iff]
  constructor
  · exact fun h => ⟨_, h, (plainWord_eq_iff (hplain _ h)).1 rfl⟩
  · rintro ⟨word, hword, hspells⟩
    rwa [(plainWord_eq_iff (hplain word hword)).2 hspells]

end ProvenanceTrail.Text
