import Mathlib.Data.List.Forall2
import ProvenanceTrail.Proofs.Text.Splitting
import ProvenanceTrail.Proofs.Trust.Decoding
import ProvenanceTrail.Trust.Pem

/-!
# What an armour holds

A certificate comes as the first block of a text. `Pem.IsFirstBlock` says what that is, part by part: the
marker that begins the block, its label, the marker that ends it, the label again, header lines if there are
any, and lines of base64. `Pem.firstBlock?_eq_some_iff` shows that the reader finds exactly this.
-/

namespace ProvenanceTrail.Pem

open Text (SplitsAt Passes IsEndTrimmed)

variable {marker seen due text before after : List Char}

/-! ## Markers -/

/-- Nothing is passed over in front of a marker that is due at once. -/
theorem eq_nil_of_passes {passed : List Char} (h : Passes marker passed)
    (heq : marker ++ text = passed ++ marker ++ after) : passed = [] := by
  cases h with
  | nil => rfl
  | @attempt seen c d due rest hmarker hne hrest =>
    rw [hmarker] at heq
    simp only [List.append_assoc, List.cons_append, List.append_cancel_left_eq, List.cons.injEq] at heq
    exact absurd heq.1.symm hne

/-- A marker does not end where the text does as long as a part of it is due. -/
theorem not_passed_of_due {passed : List Char} {c : Char} (hmarker : marker = seen ++ c :: due) :
    seen ≠ passed ++ marker ++ after := by
  intro heq
  have hlength := congrArg List.length heq
  simp only [hmarker, List.length_append, List.length_cons] at hlength
  omega

/-- An attempt breaks off at the first character that differs from the one that is due. -/
theorem passes_of_ne {passed : List Char} {c d : Char} (hmarker : marker = seen ++ c :: due) (hne : d ≠ c)
    (hpasses : Passes marker passed) (heq : seen ++ d :: text = passed ++ marker ++ after) :
    ∃ rest, passed = seen ++ d :: rest ∧ text = rest ++ marker ++ after ∧ Passes marker rest := by
  cases hpasses with
  | nil =>
    rw [hmarker, List.nil_append, List.append_assoc, List.append_cancel_left_eq, List.cons_append,
      List.cons.injEq] at heq
    exact absurd heq.1 hne
  | @attempt seen' c' d' due' rest hmarker' hne' hrest =>
    -- Both attempts follow the marker up to the character that breaks them off.
    rw [List.append_assoc, List.append_assoc, List.cons_append] at heq
    have hseen : seen = seen' := by
      rcases List.append_eq_append_iff.1 heq with ⟨more, hmore, htail⟩ | ⟨more, hmore, htail⟩
      · cases more with
        | nil => simpa using hmore.symm
        | cons e more =>
          obtain ⟨rfl, -⟩ := List.cons.inj htail
          rw [hmarker, hmore, List.append_assoc, List.append_cancel_left_eq] at hmarker'
          exact absurd (List.cons.inj hmarker').1.symm hne
      · cases more with
        | nil => simpa using hmore
        | cons e more =>
          obtain ⟨rfl, -⟩ := List.cons.inj htail
          rw [hmarker', hmore, List.append_assoc, List.append_cancel_left_eq] at hmarker
          exact absurd (List.cons.inj hmarker).1.symm hne'
    subst hseen
    obtain ⟨rfl, htext⟩ := List.cons.inj (List.append_cancel_left heq)
    exact ⟨rest, rfl, by rw [htext, List.append_assoc], hrest⟩

/-- A search that has seen the whole marker ends where it stands. -/
theorem scan_whole_eq_some_iff {found : List Char × List Char} :
    scan marker [] (marker.reverse ++ before) text = some found ↔
      ∃ passed, marker ++ text = passed ++ marker ++ found.2 ∧ Passes marker passed ∧
        found.1 = passed.reverse ++ before := by
  obtain ⟨front, rest⟩ := found
  simp only [scan, Option.some.injEq, Prod.mk.injEq, List.drop_left' (List.length_reverse)]
  constructor
  · rintro ⟨rfl, rfl⟩
    exact ⟨[], rfl, .nil, rfl⟩
  · rintro ⟨passed, heq, hpasses, rfl⟩
    obtain rfl := eq_nil_of_passes hpasses heq
    exact ⟨rfl, List.append_cancel_left heq⟩

/-- A search that has seen a part of the marker goes on from there. -/
theorem scan_eq_some_iff {found : List Char × List Char} (hmarker : marker = seen ++ due) :
    scan marker due (seen.reverse ++ before) text = some found ↔
      ∃ passed, seen ++ text = passed ++ marker ++ found.2 ∧ Passes marker passed ∧
        found.1 = passed.reverse ++ before := by
  obtain ⟨front, rest⟩ := found
  -- after a mismatch the search starts again with nothing seen
  induction text generalizing seen due before with
  | nil =>
    cases due with
    | nil =>
      rw [List.append_nil] at hmarker
      subst hmarker
      exact scan_whole_eq_some_iff
    | cons c due =>
      refine ⟨nofun, fun ⟨passed, heq, _⟩ => ?_⟩
      rw [List.append_nil] at heq
      exact absurd heq (not_passed_of_due hmarker)
  | cons d text ih =>
    cases due with
    | nil =>
      rw [List.append_nil] at hmarker
      subst hmarker
      exact scan_whole_eq_some_iff
    | cons c due =>
      rw [scan]
      split_ifs with hd
      · subst hd
        have hmarker' : marker = (seen ++ [d]) ++ due := by simp [hmarker]
        simpa using @ih _ _ before hmarker'
      · have hstep := @ih [] marker (d :: (seen.reverse ++ before)) rfl
        rw [List.reverse_nil, List.nil_append] at hstep
        rw [hstep]
        constructor
        · rintro ⟨passed, heq, hpasses, rfl⟩
          refine ⟨seen ++ d :: passed, ?_, .attempt hmarker hd hpasses, by simp⟩
          rw [List.nil_append] at heq
          rw [heq]
          simp
        · rintro ⟨passed, heq, hpasses, rfl⟩
          obtain ⟨tail, rfl, htext, htail⟩ := passes_of_ne hmarker hd hpasses heq
          exact ⟨tail, htext, htail, by simp⟩

/-- A text is split at a marker where a search finds it first. -/
theorem splitAt?_eq_some_iff :
    splitAt? marker text = some (before, after) ↔ SplitsAt marker text before after := by
  have hscan {found : List Char × List Char} : scan marker marker [] text = some found ↔
      ∃ passed, text = passed ++ marker ++ found.2 ∧ Passes marker passed ∧ found.1 = passed.reverse := by
    simpa using @scan_eq_some_iff marker [] marker text [] found rfl
  simp only [splitAt?, Option.map_eq_some_iff, hscan, Prod.exists, Prod.mk.injEq]
  constructor
  · rintro ⟨_, _, ⟨passed, heq, hpasses, rfl⟩, hbefore, rfl⟩
    obtain rfl : passed = before := by simpa using hbefore
    exact ⟨heq, hpasses⟩
  · rintro ⟨heq, hpasses⟩
    exact ⟨before.reverse, after, ⟨before, heq, hpasses, rfl⟩, before.reverse_reverse, rfl⟩

/-! ## The parts of a block -/

/-- A text as its lines, which end with line feeds and lose the blanks at their ends. -/
def IsLines (cs : List Char) (ls : List (List Char)) : Prop :=
  ∃ raw : List (List Char), raw ≠ [] ∧ (∀ line ∈ raw, '\n' ∉ line) ∧ cs = ['\n'].intercalate raw ∧
    List.Forall₂ (IsEndTrimmed Text.isBlank) raw ls

/-- A text has one division into lines. -/
theorem lines_eq_iff {cs : List Char} {ls : List (List Char)} : lines cs = ls ↔ IsLines cs ls := by
  have htrimmed (raw : List (List Char)) : raw.map (Text.dropEndWhile Text.isBlank) = ls ↔
      List.Forall₂ (IsEndTrimmed Text.isBlank) raw ls := by
    rw [← List.forall₂_eq_eq_eq, List.forall₂_map_left_iff]
    simp only [Text.dropEndWhile_eq_iff]
  rw [lines, htrimmed]
  constructor
  · intro h
    obtain ⟨hne, hlines, heq⟩ := Text.splitOn_eq_iff.1 (rfl : cs.splitOn '\n' = _)
    exact ⟨_, hne, hlines, heq, h⟩
  · rintro ⟨raw, hne, hlines, heq, h⟩
    rwa [Text.splitOn_eq_iff.2 ⟨hne, hlines, heq⟩]

/-- The header lines of a block and what follows them: an empty line stands between them. Line feeds end
the lines, or carriage returns and line feeds if there is no empty line otherwise. -/
inductive IsHeaded (body : List Char) : List Char → List Char → Prop
  | feeds {headers rest : List Char} : SplitsAt ['\n', '\n'] body headers rest → IsHeaded body headers rest
  | returns {headers rest : List Char} : (∀ h r, ¬ SplitsAt ['\n', '\n'] body h r) →
      SplitsAt ['\r', '\n', '\r', '\n'] body headers rest → IsHeaded body headers rest
  | bare : (∀ h r, ¬ SplitsAt ['\n', '\n'] body h r) →
      (∀ h r, ¬ SplitsAt ['\r', '\n', '\r', '\n'] body h r) → IsHeaded body [] body

/-- A text is not split just if the marker does not occur in it. -/
theorem splitAt?_eq_none_iff :
    splitAt? marker text = none ↔ ∀ before after, ¬ SplitsAt marker text before after := by
  rw [Option.eq_none_iff_forall_ne_some]
  exact ⟨fun h before after hsplit => h (before, after) (splitAt?_eq_some_iff.2 hsplit),
    fun h ⟨before, after⟩ hsplit => h before after (splitAt?_eq_some_iff.1 hsplit)⟩

/-- A body has one division into headers and the rest. -/
theorem splitHeaders_eq_iff {body headers rest : List Char} :
    splitHeaders body = (headers, rest) ↔ IsHeaded body headers rest := by
  rw [splitHeaders]
  split
  · rename_i found hfound
    obtain ⟨h, r⟩ := found
    have hfeeds := splitAt?_eq_some_iff.1 hfound
    constructor
    · rintro ⟨⟩
      exact .feeds hfeeds
    · rintro (hsplit | ⟨hnone, -⟩ | ⟨hnone, -⟩)
      · exact Option.some.inj (hfound.symm.trans (splitAt?_eq_some_iff.2 hsplit))
      · exact absurd hfeeds (hnone _ _)
      · exact absurd hfeeds (hnone _ _)
  · rename_i hnone
    rw [splitAt?_eq_none_iff] at hnone
    constructor
    · intro heq
      cases hfound : splitAt? ['\r', '\n', '\r', '\n'] body with
      | none =>
        rw [hfound] at heq
        obtain ⟨rfl, rfl⟩ := Prod.mk.inj heq
        exact .bare hnone (splitAt?_eq_none_iff.1 hfound)
      | some found =>
        rw [hfound] at heq
        obtain rfl : found = (headers, rest) := heq
        exact .returns hnone (splitAt?_eq_some_iff.1 hfound)
    · rintro (hsplit | ⟨-, hsplit⟩ | ⟨-, hbare⟩)
      · exact absurd hsplit (hnone _ _)
      · rw [splitAt?_eq_some_iff.2 hsplit, Option.getD_some]
      · rw [splitAt?_eq_none_iff.2 hbare, Option.getD_none]

/-- What may stand between the label of a block and its lines. -/
def IsSpace (c : Char) : Prop := c = ' ' ∨ c = '\t' ∨ c = '\n' ∨ c = '\r'

/-- Space is skipped up to the first character that is none. -/
theorem skipSpace_eq_iff {cs body : List Char} : skipSpace cs = body ↔
    ∃ space, cs = space ++ body ∧ (∀ c ∈ space, IsSpace c) ∧ ∀ c ∈ body.head?, ¬ IsSpace c := by
  have hspace (c : Char) : (c == ' ' || c == '\t' || c == '\n' || c == '\r') = true ↔ IsSpace c := by
    simp [IsSpace, or_assoc]
  rw [skipSpace]
  constructor
  · rintro rfl
    refine ⟨cs.takeWhile fun c => c == ' ' || c == '\t' || c == '\n' || c == '\r',
      List.takeWhile_append_dropWhile.symm, fun c hc => ?_, fun c hc hblank => ?_⟩
    · have hmem := List.mem_takeWhile_imp hc
      exact (hspace c).1 hmem
    have hnot := List.head?_dropWhile_not (fun c => c == ' ' || c == '\t' || c == '\n' || c == '\r') cs
    rw [hc] at hnot
    simp [(hspace c).2 hblank] at hnot
  · rintro ⟨space, rfl, hfront, hbody⟩
    rw [List.dropWhile_append_of_pos fun c hc => (hspace c).2 (hfront c hc)]
    cases body with
    | nil => rfl
    | cons c body => exact List.dropWhile_cons_of_neg (mt (hspace c).1 (hbody c rfl))

/-- The first block of a text: the marker that begins it and its label; lines, the first ones headers if
an empty line follows them, the others base64; and the marker that ends it, with the label again. -/
structure IsFirstBlock (text : List Char) (label : List Char) (contents : List UInt8) : Prop where
  parts : ∃ preamble opened armour space body closed rest headers data headerLines dataLines,
    SplitsAt "-----BEGIN ".toList text preamble opened ∧
    SplitsAt "-----".toList opened label (space ++ armour) ∧
    (∀ c ∈ space, IsSpace c) ∧ (∀ c ∈ armour.head?, ¬ IsSpace c) ∧
    SplitsAt "-----END ".toList armour body closed ∧
    SplitsAt "-----".toList closed label rest ∧
    IsHeaded body headers data ∧ IsLines headers headerLines ∧ IsLines data dataLines ∧
    (∀ line ∈ headerLines, line ≠ [] → ':' ∈ line) ∧
    dataLines.flatten = Base64.encode contents
  labelled : label ≠ []

/-- The reader finds the first block of a text. -/
theorem firstBlock?_eq_some_iff {text : String} {block : Block} : firstBlock? text = some block ↔
    IsFirstBlock text.toList block.label.toList block.contents := by
  obtain ⟨name, contents⟩ := block
  simp only [firstBlock?, Option.bind_eq_bind, Option.bind_eq_some_iff, Prod.exists, splitAt?_eq_some_iff]
  constructor
  · rintro ⟨preamble, opened, hbegin, label, after, hlabel, body, closed, hend, label', rest, hlabel', h⟩
    -- the reader tells headers from data by the first empty line
    rcases hheaded : splitHeaders body with ⟨headers, data⟩
    simp only [hheaded] at h
    split_ifs at h with hempty hheaders
    obtain ⟨hne, rfl⟩ : label ≠ [] ∧ label = label' := by simpa using hempty
    obtain ⟨bytes, hbytes, hblock⟩ := Option.map_eq_some_iff.1 h
    obtain ⟨rfl, rfl⟩ := Block.mk.inj hblock
    obtain ⟨space, hspace, hfront, harmour⟩ := skipSpace_eq_iff.1 (rfl : skipSpace after = _)
    rw [hspace] at hlabel
    rw [String.toList_ofList]
    refine ⟨⟨preamble, opened, _, space, body, closed, rest, _, _, _, _, hbegin, hlabel, hfront, harmour,
      hend, hlabel', splitHeaders_eq_iff.1 hheaded, lines_eq_iff.1 rfl, lines_eq_iff.1 rfl, ?_,
      Base64.decode?_eq_some_iff.1 hbytes⟩, hne⟩
    simpa using hheaders
  · rintro ⟨⟨preamble, opened, armour, space, body, closed, rest, headers, data, headerLines, dataLines, hbegin,
      hlabel, hfront, harmour, hend, hlabel', hheaded, hheaders, hdata, hwell, hbytes⟩, hne⟩
    have hskip : skipSpace (space ++ armour) = armour := skipSpace_eq_iff.2 ⟨space, rfl, hfront, harmour⟩
    refine ⟨preamble, opened, hbegin, name.toList, _, hlabel, body, closed, hskip.symm ▸ hend, name.toList, rest,
      hlabel', ?_⟩
    rw [splitHeaders_eq_iff.2 hheaded]
    simp only [lines_eq_iff.2 hheaders, lines_eq_iff.2 hdata, Base64.decode?_eq_some_iff.2 hbytes]
    rw [if_neg (by simpa using hne), if_neg (by simpa using hwell), String.ofList_toList]
    rfl

end ProvenanceTrail.Pem
