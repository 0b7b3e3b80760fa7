import ProvenanceTrail.Proofs.Text.Trimming

/-!
# Splitting texts

Splitting at a separator gives the parts that hold none and whose concatenation, with separators between
them, is the text (`Text.splitOn_eq_iff`). A text is split at the first place where a marker is found
(`Text.SplitsAt`); what the search passes over are attempts at the marker that broke off.
-/

namespace ProvenanceTrail.Text

/-! ## At every separator -/

/-- What stands between separators holds none. -/
theorem mem_of_mem_splitOn {x : Char} {cs : List Char} :
    ∀ s ∈ cs.splitOn x, ∀ c ∈ s, c ∈ cs ∧ c ≠ x := by
  induction cs with
  | nil => simp [List.splitOn_nil]
  | cons d cs ih =>
    rw [List.splitOn_cons_eq_if_modifyHead]
    intro s hs c hc
    split_ifs at hs with hd
    · rcases List.mem_cons.1 hs with rfl | hs
      · exact absurd hc List.not_mem_nil
      · exact (ih s hs c hc).imp_left (List.mem_cons_of_mem _)
    · obtain ⟨t, rest, hsplit⟩ := List.exists_cons_of_ne_nil (List.splitOn_ne_nil x cs)
      rw [hsplit, List.modifyHead_cons] at hs
      rw [hsplit] at ih
      rcases List.mem_cons.1 hs with rfl | hs
      · rcases List.mem_cons.1 hc with rfl | hc
        · exact ⟨List.mem_cons_self, by simpa using hd⟩
        · exact (ih t List.mem_cons_self c hc).imp_left (List.mem_cons_of_mem _)
      · exact (ih s (List.mem_cons_of_mem _ hs) c hc).imp_left (List.mem_cons_of_mem _)

/-- The parts between separators are the lists without separators that make up the text. -/
theorem splitOn_eq_iff {x : Char} {cs : List Char} {parts : List (List Char)} : cs.splitOn x = parts ↔
    parts ≠ [] ∧ (∀ s ∈ parts, x ∉ s) ∧ cs = [x].intercalate parts := by
  constructor
  · rintro rfl
    exact ⟨List.splitOn_ne_nil x cs, fun s hs hx => (mem_of_mem_splitOn s hs x hx).2 rfl,
      (List.intercalate_splitOn x).symm⟩
  · rintro ⟨hne, hparts, rfl⟩
    exact List.splitOn_intercalate x hparts hne

/-! ## At a marker -/

/-- What a search for a marker passes over: attempts that begin like the marker and break off at a
character other than the one that was due. The next attempt starts after that character. -/
inductive Passes (marker : List Char) : List Char → Prop
  | nil : Passes marker []
  | attempt {seen : List Char} {c d : Char} {due rest : List Char} :
      marker = seen ++ c :: due → d ≠ c → Passes marker rest → Passes marker (seen ++ d :: rest)

/-- A text with a marker at the place where a search finds it first. -/
structure SplitsAt (marker text before after : List Char) : Prop where
  parts : text = before ++ marker ++ after
  passes : Passes marker before

/-! ## The ends of lines -/

/-- A list is another one less what may be dropped at the end. -/
structure IsEndTrimmed (p : Char → Bool) (cs ds : List Char) : Prop where
  parts : ∃ back, cs = ds ++ back ∧ ∀ c ∈ back, p c
  last : ∀ c ∈ ds.getLast?, ¬ p c

/-- A text has one front without such characters at its end. -/
theorem dropEndWhile_eq_iff {p : Char → Bool} {cs ds : List Char} :
    dropEndWhile p cs = ds ↔ IsEndTrimmed p cs ds := by
  rw [dropEndWhile_eq_rdropWhile]
  constructor
  · rintro rfl
    refine ⟨⟨_, List.rdropWhile_append_rtakeWhile.symm, fun c hc => List.mem_rtakeWhile_imp hc⟩, ?_⟩
    intro c hc
    obtain ⟨hne, rfl⟩ := List.mem_getLast?_eq_getLast hc
    exact List.rdropWhile_last_not _ _ hne
  · rintro ⟨⟨back, rfl, hback⟩, hlast⟩
    rw [rdropWhile_append_of_pos hback]
    exact List.rdropWhile_eq_self_iff.2 fun hne => hlast _ (List.getLast?_eq_some_getLast hne)

end ProvenanceTrail.Text
