import ProvenanceTrail.Proofs.Regex.Matching
import ProvenanceTrail.Regex.Pattern

/-!
# Patterns of escaped texts

The parser reads a source piece by piece. A piece takes it from one state to another, whatever follows
(`Regex.Progress.Reads`), so that what is known of the pieces is known of the source. An escaped text adds
its characters to the items read so far (`Regex.Progress.reads_escape`), and therefore a pattern made from
one accepts that text only (`Pattern.accepts_escape`).
-/

namespace ProvenanceTrail

namespace Regex

namespace Progress

variable {p q r : Progress} {c : Char} {cs ds : List Char}

/-- Reading a piece of source takes the parser from one state to another, whatever follows. -/
def Reads (p : Progress) (cs : List Char) (q : Progress) : Prop :=
  ∃ steps ≤ cs.length, ∀ fuel rest, p.run? (fuel + steps) (cs ++ rest) = q.run? fuel rest

/-- The empty text leaves the parser as it is. -/
theorem Reads.nil : Reads p [] p := ⟨0, le_refl _, fun _ _ => rfl⟩

/-- Texts read one after the other are read as one text. -/
theorem Reads.append (h₁ : Reads p cs q) (h₂ : Reads q ds r) : Reads p (cs ++ ds) r := by
  obtain ⟨n, hn, hcs⟩ := h₁
  obtain ⟨m, hm, hds⟩ := h₂
  refine ⟨m + n, by rw [List.length_append]; omega, fun fuel rest => ?_⟩
  rw [← Nat.add_assoc, List.append_assoc, hcs, hds]

/-- Without flags nothing is skipped. -/
theorem skip_eq_self (hp : p.flags = Flags.none) (cs : List Char) : skip p.flags cs = cs := by
  rw [hp]
  rfl

/-- A piece that is read in one step. -/
theorem reads_of_step (hp : p.flags = Flags.none) (h : ∀ rest, p.step? c (cs ++ rest) = some (q, rest)) :
    Reads p (c :: cs) q := by
  refine ⟨1, by simp, fun fuel rest => ?_⟩
  rw [run?, List.cons_append, skip_eq_self hp]
  simp only [h]

/-- The state after some more items. -/
def addAll (p : Progress) (es : List Regex) : Progress := { p with items := es.reverse ++ p.items }

/-- A character, escaped where it has a meaning, is read as that character. -/
theorem reads_escapedChar (hp : p.flags = Flags.none) :
    Reads p (if isMeta c then ['\\', c] else [c]) (p.add (.char c)) := by
  have hchar : ofChar p.flags c = .char c := by
    rw [hp]
    rfl
  split
  · rename_i hmeta
    have hletter : c ≠ 'x' ∧ c ≠ 'u' ∧ c ≠ 'U' := by
      refine ⟨?_, ?_, ?_⟩ <;> rintro rfl <;> exact absurd hmeta (by decide)
    refine reads_of_step hp fun rest => ?_
    simp [step?, escape?, isEscapable, hmeta, hletter, hchar]
  · rename_i hplain
    refine reads_of_step hp fun rest => ?_
    unfold step?
    split
    case h_13 => rw [hchar]; rfl
    all_goals exact absurd rfl hplain

/-- An escaped text is read as its characters. -/
theorem reads_escape (hp : p.flags = Flags.none) (text : String) :
    Reads p (Pattern.escape text).toList (p.addAll (text.toList.map .char)) := by
  rw [Pattern.escape, String.toList_ofList]
  induction text.toList generalizing p with
  | nil => exact .nil
  | cons c cs ih =>
    have hrest := (reads_escapedChar (c := c) hp).append (ih (p := p.add (.char c)) hp)
    simpa [addAll, add] using hrest

/-- The bar ends an alternative. -/
theorem reads_bar (hp : p.flags = Flags.none) : Reads p ['|'] p.endAlternative :=
  reads_of_step hp fun _ => rfl

/-- A closing parenthesis closes the innermost open group. -/
theorem reads_close (hp : p.flags = Flags.none) (h : p.closeGroup? = some q) : Reads p [')'] q :=
  reads_of_step hp fun rest => by simp [step?, h]

/-- The state behind the parenthesis of a numbered group. -/
def opened (p : Progress) : Progress :=
  ⟨⟨p.alternatives, p.items, p.flags, true⟩ :: p.groups, [], [], p.flags, p.names⟩

/-- A parenthesis opens a numbered group, unless a question mark follows. -/
theorem reads_open (hp : p.flags = Flags.none) (hgroups : p.groups.length < nestLimit)
    (hfirst : cs.head? = some c) (hc : c ≠ '?') (h : Reads p.opened cs q) : Reads p ('(' :: cs) q := by
  obtain ⟨n, hn, hread⟩ := h
  obtain ⟨more, rfl⟩ := List.head?_eq_some_iff.1 hfirst
  refine ⟨n + 1, Nat.succ_le_succ hn, fun fuel rest => ?_⟩
  have hstep : p.step? '(' (c :: (more ++ rest)) = some (p.opened, c :: (more ++ rest)) := by
    simp [step?, group?, skip_eq_self hp, openGroup?, Nat.not_le.2 hgroups, opened, hc]
  rw [← Nat.add_assoc, run?]
  simp only [List.cons_append, skip_eq_self hp, hstep]
  exact hread fuel rest

/-- No escaped text starts with a question mark. -/
theorem exists_head?_escape {text : String} (h : text ≠ "") :
    ∃ c, (Pattern.escape text).toList.head? = some c ∧ c ≠ '?' := by
  rw [Pattern.escape, String.toList_ofList]
  cases htext : text.toList with
  | nil => exact absurd (String.toList_inj.1 htext) h
  | cons c cs =>
    by_cases hmeta : isMeta c
    · exact ⟨'\\', by simp [hmeta], by decide⟩
    · refine ⟨c, by simp [hmeta], ?_⟩
      rintro rfl
      exact hmeta rfl

/-- A choice of two escaped texts in parentheses is read as one item. -/
theorem reads_choice (hp : p.flags = Flags.none) (hgroups : p.groups.length < nestLimit)
    {first : String} (hfirst : first ≠ "") (second : String) :
    Reads p ('(' :: ((Pattern.escape first).toList ++ ['|'] ++ (Pattern.escape second).toList ++ [')']))
      (p.add (.group (.alternation
        [ofSequence (first.toList.map .char), ofSequence (second.toList.map .char)]))) := by
  let between := (p.opened.addAll (first.toList.map .char)).endAlternative
  have hbar : p.opened.Reads ((Pattern.escape first).toList ++ ['|']) between :=
    (reads_escape (p := p.opened) hp first).append (reads_bar hp)
  have hinside := hbar.append (reads_escape (p := between) hp second)
  have hclosed : (between.addAll (second.toList.map .char)).closeGroup? =
      some (p.add (.group (.alternation
        [ofSequence (first.toList.map .char), ofSequence (second.toList.map .char)]))) := by
    simp [closeGroup?, between, opened, addAll, endAlternative, current, add, ofAlternatives]
  obtain ⟨c, hhead, hc⟩ := exists_head?_escape hfirst
  exact reads_open hp hgroups (by simp [hhead]) hc (hinside.append (reads_close hp hclosed))

/-- The state in which the source of a pattern is read: within the group that the anchors stand around. -/
def inPattern : Progress := ⟨[⟨[], [.look .start], Flags.none, false⟩], [], [], Flags.none, []⟩

/-- The parser has fuel for the whole text: when all groups are closed, what has been read is the
expression. -/
theorem Reads.run?_eq (h : Reads p cs q) (hgroups : q.groups = []) (hflags : q.flags = Flags.none) :
    p.run? (cs.length + 1) cs = some q.current := by
  obtain ⟨n, hn, hread⟩ := h
  have hfuel : cs.length + 1 = cs.length - n + 1 + n := by omega
  have hdone := hread (cs.length - n + 1) []
  rw [List.append_nil] at hdone
  rw [hfuel, hdone, run?, skip_eq_self hflags]
  simp [hgroups]

/-- The front the service puts before a source opens the text and an unnamed group. -/
theorem reads_anchor : Reads initial "^(?:".toList inPattern := ⟨2, by decide, fun _ _ => rfl⟩

/-- The source of a pattern is read on its own, between the anchors. -/
theorem parse?_anchored {source : String} (h : Reads inPattern source.toList q)
    (hgroups : q.groups = inPattern.groups) (hflags : q.flags = Flags.none) :
    parse? (Pattern.anchored source) =
      if (whole q.current).depth ≤ nestLimit && (whole q.current).fits then
        some (whole q.current)
      else none := by
  have hclosed : q.closeGroup? = some ⟨[], [], [q.current, .look .start], Flags.none, q.names⟩ := by
    rw [closeGroup?, hgroups]
    rfl
  have hend : Reads q ")$".toList
      ⟨[], [], [.look .finish, q.current, .look .start], Flags.none, q.names⟩ :=
    (reads_close hflags hclosed).append (reads_of_step rfl fun _ => rfl)
  have hwhole := (reads_anchor.append h).append hend
  rw [← String.toList_append, ← String.toList_append] at hwhole
  rw [parse?, Pattern.anchored]
  simp only [hwhole.run?_eq rfl rfl]
  rfl

end Progress

end Regex

namespace Pattern

open Regex (Progress whole nestLimit)

/-- A source that is read as some items in turn gives the pattern for them, unless that is too large. -/
theorem ofSource?_of_reads {source : String} {es : List Regex}
    (h : Progress.inPattern.Reads source.toList (Progress.inPattern.addAll es)) :
    ofSource? source =
      if (whole (.ofSequence es)).depth ≤ nestLimit && (whole (.ofSequence es)).fits then
        some ⟨source, whole (.ofSequence es)⟩
      else none := by
  have hcurrent : (Progress.inPattern.addAll es).current = .ofSequence es := by
    simp [Progress.addAll, Progress.current, Progress.inPattern, Regex.ofAlternatives]
  rw [ofSource?, Progress.parse?_anchored h rfl rfl, hcurrent]
  split <;> rfl

/-- The expression for a text: its characters in turn. -/
def literal (text : String) : Regex := .ofSequence (text.toList.map .char)

/-- Texts are escaped piece by piece. -/
theorem escape_append (first second : String) : escape (first ++ second) = escape first ++ escape second := by
  rw [escape, String.toList_append, List.flatMap_append, String.ofList_append]
  rfl

/-- An escaped text compiles to the whole literal text, unless this is too deep or too large. -/
theorem ofSource?_escape (text : String) :
    ofSource? (escape text) =
      if (whole (literal text)).depth ≤ nestLimit && (whole (literal text)).fits then
        some ⟨escape text, whole (literal text)⟩
      else none :=
  ofSource?_of_reads (Progress.reads_escape rfl text)

/-- **The pattern of an escaped text accepts that text only.** -/
theorem accepts_escape {text : String} {p : Pattern} (h : ofSource? (escape text) = some p) (other : String) :
    p.accepts other ↔ other = text := by
  rw [ofSource?_escape] at h
  split at h
  case isFalse => cases h
  obtain rfl := Option.some.inj h
  have hwhole : Regex.SpansInTurn other.toList.toArray (text.toList.map .char) 0 other.toList.length ↔
      other.toList = text.toList := Regex.spansInTurn_chars_whole
  rw [accepts, Regex.occursIn_whole, literal, Regex.spans_ofSequence, hwhole, String.toList_inj]

example : (ofSource? (escape "a.b")).map (fun p => (p.accepts "a.b", p.accepts "axb", p.accepts "a.b\n")) =
    some (true, false, false) := by
  decide

/-! ## A choice of two texts -/

/-- A pattern for texts with a choice of two parts in between. -/
def choice (before first second after : String) : String :=
  escape before ++ "(" ++ escape first ++ "|" ++ escape second ++ ")" ++ escape after

/-- The expression for a choice. -/
def choiceRegex (before first second after : String) : Regex :=
  .ofSequence (before.toList.map .char ++ [.group (.alternation [literal first, literal second])] ++
    after.toList.map .char)

/-- A choice of two escaped texts between others compiles to that choice, unless this is too deep or too
large. -/
theorem ofSource?_choice (before : String) {first : String} (hfirst : first ≠ "") (second after : String) :
    ofSource? (choice before first second after) =
      if (whole (choiceRegex before first second after)).depth ≤ nestLimit &&
          (whole (choiceRegex before first second after)).fits then
        some ⟨choice before first second after, whole (choiceRegex before first second after)⟩
      else none := by
  refine ofSource?_of_reads ?_
  let outside := Progress.inPattern.addAll (before.toList.map .char)
  have hbefore : Progress.inPattern.Reads (escape before).toList outside :=
    Progress.reads_escape rfl before
  have hchoice := hbefore.append
    (Progress.reads_choice (p := outside) rfl (show 1 < nestLimit by decide) hfirst second)
  simpa [choice, literal, outside, Progress.addAll, Progress.add] using
    hchoice.append (Progress.reads_escape rfl after)

/-- The pattern of a choice accepts the two texts. -/
theorem accepts_choice {before first second after : String} {p : Pattern} (hfirst : first ≠ "")
    (h : ofSource? (choice before first second after) = some p) (other : String) :
    p.accepts other ↔ other = before ++ first ++ after ∨ other = before ++ second ++ after := by
  rw [ofSource?_choice before hfirst] at h
  split at h
  case isFalse => cases h
  obtain rfl := Option.some.inj h
  have hwhole (part : String) : Regex.SpansInTurn other.toList.toArray
        (before.toList.map .char ++ part.toList.map .char ++ after.toList.map .char) 0
          other.toList.length ↔ other = before ++ part ++ after := by
    rw [← List.map_append, ← List.map_append, ← String.toList_append, ← String.toList_append,
      ← String.toList_inj]
    exact Regex.spansInTurn_chars_whole
  rw [accepts, Regex.occursIn_whole, choiceRegex, Regex.spans_ofSequence, ← hwhole, ← hwhole]
  simp only [Regex.spansInTurn_append, Regex.spansInTurn_singleton, Regex.Spans, Regex.SpansOne, literal,
    Regex.spans_ofSequence, or_false, and_or_left, or_and_right, exists_or]

end Pattern

end ProvenanceTrail
