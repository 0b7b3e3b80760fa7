import Mathlib.Data.List.DropRight
import ProvenanceTrail.Text.Blank

/-!
# Trimming

Trimming takes the blanks at both ends of a text and nothing else: what stays neither begins nor ends with a
blank, and only blanks stand around it (`Text.IsTrimmed`). This determines what stays (`Text.trim_eq_iff`).
-/

namespace ProvenanceTrail.Text

/-! ## The end of a list -/

section End

variable {p : Char → Bool} {cs ds : List Char}

/-- A tail of dropped characters is dropped. -/
theorem rdropWhile_append_of_pos (h : ∀ d ∈ ds, p d) : (cs ++ ds).rdropWhile p = cs.rdropWhile p := by
  rw [List.rdropWhile, List.reverse_append, List.dropWhile_append_of_pos, ← List.rdropWhile]
  exact fun d hd => h d (List.mem_reverse.1 hd)

/-- What does not end with something to be dropped is kept, whatever stands before it. -/
theorem foldr_append_of_ne_nil (h : ds ≠ []) :
    cs.foldr (fun c rest => if rest.isEmpty && p c then [] else c :: rest) ds = cs ++ ds := by
  induction cs with
  | nil => rfl
  | cons c cs ih =>
    rw [List.foldr_cons, ih]
    simp [h]

/-- Dropping at the end is dropping from the right. -/
theorem dropEndWhile_eq_rdropWhile (p : Char → Bool) (cs : List Char) :
    dropEndWhile p cs = cs.rdropWhile p := by
  induction cs using List.reverseRecOn with
  | nil => rfl
  | append_singleton cs c ih =>
    rw [dropEndWhile, List.foldr_append, List.rdropWhile_concat]
    split_ifs with hc
    · rw [← ih, dropEndWhile]
      simp [hc]
    · simpa [hc] using foldr_append_of_ne_nil (p := p) (List.cons_ne_nil c [])

end End

/-! ## Trimmed texts -/

variable {s t : String}

/-- A text is another one less the blanks at both ends. -/
structure IsTrimmed (s t : String) : Prop where
  parts : ∃ front back, s.toList = front ++ t.toList ++ back ∧
    (∀ c ∈ front, isBlank c) ∧ ∀ c ∈ back, isBlank c
  head : ∀ c ∈ t.toList.head?, ¬ isBlank c
  last : ∀ c ∈ t.toList.getLast?, ¬ isBlank c

/-- Trimming drops blanks on the left and on the right. -/
theorem toList_trim (s : String) :
    (trim s).toList = (s.toList.dropWhile isBlank).rdropWhile isBlank := by
  rw [trim, String.toList_ofList, dropEndWhile_eq_rdropWhile, trimStart]

/-- Trimming leaves a trimmed text. -/
theorem isTrimmed_trim (s : String) : IsTrimmed s (trim s) where
  parts := by
    refine ⟨s.toList.takeWhile isBlank, (s.toList.dropWhile isBlank).rtakeWhile isBlank, ?_, ?_, ?_⟩
    · rw [toList_trim, List.append_assoc, List.rdropWhile_append_rtakeWhile,
        List.takeWhile_append_dropWhile]
    · exact fun c hc => List.mem_takeWhile_imp hc
    · exact fun c hc => List.mem_rtakeWhile_imp hc
  head := by
    intro c hc
    obtain ⟨back, hback⟩ := List.rdropWhile_prefix isBlank (s.toList.dropWhile isBlank)
    have hfirst : (s.toList.dropWhile isBlank).head? = some c := by
      rw [← hback, List.head?_append, ← toList_trim, hc]
      rfl
    have hnot := List.head?_dropWhile_not isBlank s.toList
    simpa [hfirst] using hnot
  last := by
    intro c hc
    rw [toList_trim] at hc
    obtain ⟨hne, rfl⟩ := List.mem_getLast?_eq_getLast hc
    exact List.rdropWhile_last_not _ _ hne

/-- There is one trimmed text only. -/
theorem IsTrimmed.trim_eq (h : IsTrimmed s t) : trim s = t := by
  obtain ⟨front, back, hparts, hfront, hback⟩ := h.parts
  rw [← String.toList_inj, toList_trim, hparts, List.append_assoc, List.dropWhile_append_of_pos hfront]
  cases ht : t.toList with
  | nil =>
    -- A text of blanks only is dropped from the front already.
    rw [List.nil_append, List.dropWhile_eq_nil_iff.2 hback, List.rdropWhile_nil]
  | cons c cs =>
    have hfirst : ¬ isBlank c := h.head c (by rw [ht]; rfl)
    rw [List.cons_append, List.dropWhile_cons_of_neg hfirst, ← List.cons_append, ← ht,
      rdropWhile_append_of_pos hback]
    exact List.rdropWhile_eq_self_iff.2 fun hne => h.last _ (List.getLast?_eq_some_getLast hne)

/-- Trimming takes the blanks at both ends and nothing else. -/
theorem trim_eq_iff : trim s = t ↔ IsTrimmed s t :=
  ⟨fun h => h ▸ isTrimmed_trim s, IsTrimmed.trim_eq⟩

end ProvenanceTrail.Text
