import ProvenanceTrail.Proofs.Regex.Escaping
import ProvenanceTrail.Proofs.Regex.Steps

/-!
# Patterns and whole inputs

The source of a pattern is read within the group that the anchors stand around. That makes one difference only:
a parenthesis that closes no group of the source closes that one (`Regex.Progress.step?_lifts`). The source up to
the first such parenthesis is complete by itself (`Regex.Progress.exists_completes`). If it is the one that was
put behind the source, the source is an expression by itself, and the pattern accepts the texts that match it as
a whole. Otherwise the source breaks out, and the anchors no longer stand around all of it.
-/

namespace ProvenanceTrail

namespace Regex

open Reader

namespace Progress

variable {p q r : Progress} {c : Char} {cs : List Char} {e : Regex}

/-! ## One more open group -/

/-- The state within one more group, the outermost. -/
def within (p : Progress) : Progress :=
  { p with groups := p.groups ++ inPattern.groups }

/-- One more group does not change the flags. -/
@[simp] theorem within_flags (p : Progress) : p.within.flags = p.flags := rfl

/-- What a reader does to a state within one more group, another does to the state without it. -/
def Lifts (f' f : Reader Progress) : Prop :=
  ∀ cs q' rest, f' cs = some (q', rest) → ∃ q : Progress, q' = q.within ∧ f cs = some (q, rest)

/-- Going by the next character lifts if both ways do. -/
theorem Lifts.onNext {f' f : Reader Progress} {g' g : Char → Reader Progress} (test : Char → Bool)
    (hg : ∀ c, Lifts (g' c) (g c)) (hf : Lifts f' f) : Lifts (onNext test g' f') (onNext test g f) := by
  intro cs q' rest h
  cases cs with
  | nil => exact hf [] q' rest h
  | cons c cs =>
    rw [Reader.onNext] at h ⊢
    split at h
    case isTrue hc =>
      rw [if_pos hc]
      exact hg c _ _ _ h
    case isFalse hc =>
      rw [if_neg hc]
      exact hf _ _ _ h

/-- Reading something first lifts if what comes behind does. -/
theorem Lifts.bind {α : Type} {r : Reader α} {g' g : α → Reader Progress} (hg : ∀ x, Lifts (g' x) (g x)) :
    Lifts (r >>= g') (r >>= g) := by
  intro cs q' rest h
  obtain ⟨⟨x, after⟩, hfirst, h⟩ := Option.bind_eq_some_iff.1 h
  obtain ⟨q, hq, hnext⟩ := hg x _ _ _ h
  exact ⟨q, hq, Option.bind_eq_some_iff.2 ⟨_, hfirst, hnext⟩⟩

/-- A choice lifts if both ways do. -/
theorem Lifts.ite {f' f g' g : Reader Progress} (p : Prop) [Decidable p] (hf : Lifts f' f) (hg : Lifts g' g) :
    Lifts (if p then f' else g') (if p then f else g) := by
  by_cases hp : p <;> simpa only [hp, if_true, if_false]

/-- A reader that fails lifts all readers. -/
theorem Lifts.fail {f : Reader Progress} : Lifts (fun _ => none) f := nofun

/-- A state is lifted to the state within one more group. -/
theorem Lifts.pure (p : Progress) : Lifts (Pure.pure p.within) (Pure.pure p) := by
  intro cs q' rest h
  obtain ⟨rfl, rfl⟩ := Prod.mk.inj (Option.some.inj h)
  exact ⟨p, rfl, rfl⟩

/-- A group is opened within one more group too, if that does not nest too deep. -/
theorem opening_lifts (p : Progress) (flags : Flags) (numbered : Bool) :
    Lifts (opening p.within flags numbered) (opening p flags numbered) := by
  by_cases hroom : nestLimit ≤ p.within.groups.length
  · rw [opening, openGroup?, if_pos hroom]
    exact .fail
  · have hless : ¬nestLimit ≤ p.groups.length := by
      rw [within, List.length_append] at hroom
      omega
    rw [opening, openGroup?, if_neg hroom, opening, openGroup?, if_neg hless]
    exact .pure ⟨⟨p.alternatives, p.items, p.flags, numbered⟩ :: p.groups, [], [], flags, p.names⟩

/-- A named group is opened within one more group too. -/
theorem naming_lifts (p : Progress) : Lifts (naming p.within) (naming p) :=
  .bind fun name => .ite _ .fail (opening_lifts { p with names := name :: p.names } p.flags true)

/-- Flags are set within one more group too. -/
theorem flagging_lifts (p : Progress) : Lifts (flagging p.within) (flagging p) := by
  intro cs q' rest h
  rw [flagging] at h ⊢
  split at h
  case isTrue => cases h
  case isFalse hopen =>
    rw [if_neg hopen]
    have hbehind : Lifts _ _ := .bind (r := letters p.flags false [] '?') fun r =>
      .ite (r.2 == ':') (opening_lifts p r.1 false) (.pure { p with flags := r.1 })
    exact hbehind _ _ _ h

/-- What follows a question mark is read within one more group too. -/
theorem marked_lifts (p : Progress) : Lifts (marked p.within) (marked p) :=
  .onNext _ (fun _ => .onNext _ (fun _ => .fail) (.onNext _ (fun _ => .fail) (naming_lifts p)))
    (.onNext _ (fun _ => .onNext _ (fun _ => naming_lifts p) .fail) (flagging_lifts p))

/-- A group is read within one more group too. -/
theorem group?_lifts (p : Progress) : Lifts p.within.group? p.group? := by
  rw [group?_eq, group?_eq]
  exact .bind fun _ => .onNext _ (fun _ => marked_lifts p) (opening_lifts p p.flags true)

/-- A group that is not the outermost is closed within one more group too. -/
theorem closeGroup?_within (h : p.groups ≠ []) : p.within.closeGroup? = p.closeGroup?.map within := by
  obtain ⟨g, groups, hgroups⟩ := List.exists_cons_of_ne_nil h
  simp only [closeGroup?, within, hgroups, List.cons_append, Option.map_some]
  rfl

/-- Where no group is open, one more group is closed, with the first anchor in front of it. -/
theorem closeGroup?_outermost (h : p.groups = []) :
    p.within.closeGroup? = some ⟨[], [], [p.current, .look .start], Flags.none, p.names⟩ := by
  obtain ⟨groups, alternatives, items, flags, names⟩ := p
  obtain rfl : groups = [] := h
  rfl

/-- The last item is repeated within one more group too. -/
theorem repeatLast?_within (p : Progress) (least : Nat) (most : Option Nat) :
    p.within.repeatLast? least most = (p.repeatLast? least most).map within := by
  obtain ⟨groups, alternatives, items, flags, names⟩ := p
  cases items <;> rfl

/-- What is done to a state without reading lifts with what is read behind it. -/
theorem Lifts.attach (o : Option Progress) (g : List Char → List Char) :
    Lifts (fun cs => (o.map within).map fun q => (q, g cs)) (fun cs => o.map fun q => (q, g cs)) := by
  intro cs q' rest h
  cases o with
  | none => cases h
  | some q =>
    obtain ⟨rfl, rfl⟩ := Prod.mk.inj (Option.some.inj h)
    exact ⟨q, rfl, rfl⟩

/-- What is done to a state with a value that was read lifts. -/
theorem Lifts.map {α : Type} (r : Reader α) (f : α → Progress) :
    Lifts (fun cs => (r cs).map fun x => ((f x.1).within, x.2)) (fun cs => (r cs).map fun x => (f x.1, x.2)) := by
  intro cs q' rest h
  obtain ⟨x, hx, hq⟩ := Option.map_eq_some_iff.1 h
  obtain ⟨rfl, rfl⟩ := Prod.mk.inj hq
  exact ⟨f x.1, rfl, Option.map_eq_some_iff.2 ⟨x, hx, rfl⟩⟩

/-- What is done to a state without reading lifts. -/
theorem Lifts.lift (o : Option Progress) : Lifts (StateT.lift (o.map within)) (StateT.lift o) := by
  cases o with
  | none => exact .fail
  | some q => exact .pure q

/-- A repetition is read within one more group too. -/
theorem repeating_lifts (p : Progress) (least : Nat) (most : Option Nat) :
    Lifts (fun cs => (p.within.repeatLast? least most).map fun q => (q, afterRepetition cs))
      (fun cs => (p.repeatLast? least most).map fun q => (q, afterRepetition cs)) := by
  rw [repeatLast?_within]
  exact .attach _ _

/-- Only the outermost closing parenthesis is read differently within one more group. -/
theorem step?_lifts (h : c ≠ ')' ∨ p.groups ≠ []) : Lifts (p.within.step? c) (p.step? c) := by
  by_cases hbrace : c = '\x7b'
  · subst hbrace
    rw [counting_eq, counting_eq]
    refine .bind fun r => ?_
    rw [repeatLast?_within]
    exact .lift _
  unfold step?
  split
  case h_1 => exact group?_lifts p
  case h_2 =>
    rw [closeGroup?_within (h.resolve_left fun hne => hne rfl)]
    exact .attach _ id
  case h_3 => exact .pure p.endAlternative
  case h_4 => exact .map (class? p.flags) p.add
  case h_5 => exact repeating_lifts p 0 (some 1)
  case h_6 => exact repeating_lifts p 0 none
  case h_7 => exact repeating_lifts p 1 none
  case h_8 => exact absurd rfl hbrace
  case h_9 => exact .map (escape? p.flags) p.add
  case h_10 => exact .pure (p.add _)
  case h_11 => exact .pure (p.add _)
  case h_12 => exact .pure (p.add _)
  case h_13 => exact .pure (p.add _)

/-! ## Up to the parenthesis that closes the outermost group -/

/-- Reading a piece of source takes the parser from one state to another, whatever closing follows. -/
def Completes (p : Progress) (cs : List Char) (q : Progress) : Prop :=
  ∃ steps ≤ cs.length, ∀ fuel t, Closing t → p.run? (fuel + steps) (cs ++ t) = q.run? fuel t

/-- What is skipped in front does not matter to what is read. -/
theorem run?_congr {fuel : Nat} {ds : List Char} (h : skip p.flags cs = skip p.flags ds) :
    p.run? fuel cs = p.run? fuel ds := by
  cases fuel with
  | zero => rfl
  | succ fuel => rw [run?, run?, h]

/-- At the end of a source, what was read is the expression, if no group is open. -/
theorem run?_nil (fuel : Nat) (h : p.groups = []) : p.run? (fuel + 1) [] = some p.current := by
  rw [run?, skip_closing _ closing_nil]
  simp [h]

/-- A piece of source that is read to its end does not leave a brace that needs more. -/
theorem Completes.not_dangling (h : Completes p cs q) (hq : q.groups = []) : ¬Dangling p.flags cs := by
  rintro ⟨gap, rfl, hgap⟩
  obtain ⟨steps, -, hsteps⟩ := h
  have hrun := hsteps 1 [] closing_nil
  rw [run?_nil 0 hq, Nat.add_comm, List.append_nil, run?, skip_cons (by decide) (by decide)] at hrun
  have hcount : counted? p.flags gap = none := by
    rw [counted?, hgap, count?_nil]
    rfl
  simp [step?, hcount] at hrun

/-- Nothing is read when all that there is is skipped. -/
theorem completes_of_skip {more : List Char} (h : skip p.flags (cs ++ ')' :: more) = ')' :: more) :
    Completes p cs p := by
  refine ⟨0, Nat.zero_le _, fun fuel t ht => run?_congr ?_⟩
  rw [← List.nil_append (')' :: more)] at h
  rw [skip_closing _ ht]
  exact skip_same h ht

/-- What follows a step is complete, and so is the source up to there. -/
theorem Completes.step {front middle ds more : List Char} (h : Completes q ds r) (hr : r.groups = [])
    (hskip : skip p.flags (front ++ c :: (middle ++ ds) ++ ')' :: more) = c :: (middle ++ ds) ++ ')' :: more)
    (hstep : p.step? c (middle ++ ds ++ ')' :: more) = some (q, ds ++ ')' :: more)) :
    Completes p (front ++ c :: (middle ++ ds)) r := by
  obtain ⟨steps, hsteps, hrun⟩ := id h
  refine ⟨steps + 1, by simp only [List.length_append, List.length_cons]; omega, fun fuel t ht => ?_⟩
  have hskip := skip_same hskip ht
  have hstep := (step?_same hstep ht).resolve_right fun hgap => h.not_dangling hr hgap.2
  rw [← Nat.add_assoc, run?, hskip, List.cons_append]
  simp only [hstep]
  exact hrun fuel t ht

/-- A text that is read within one more group has a parenthesis that closes the group, and what stands in front
of it is complete. -/
theorem exists_completes {fuel : Nat} (h : p.within.run? fuel cs = some e) :
    ∃ first rest q left, cs = first ++ ')' :: rest ∧ Completes p first q ∧ q.groups = [] ∧
      Progress.run? left ⟨[], [], [q.current, .look .start], Flags.none, q.names⟩ rest = some e := by
  induction fuel generalizing p cs with
  | zero => cases h
  | succ fuel ih =>
    rw [run?, within_flags] at h
    cases hskip : skip p.flags cs with
    | nil => simp [hskip, within, inPattern] at h
    | cons c behind =>
      rw [hskip] at h
      dsimp only at h
      obtain ⟨front, hfront⟩ := skip_suffix p.flags cs
      rw [hskip] at hfront
      by_cases hclose : c = ')' ∧ p.groups = []
      · -- this parenthesis closes the group that was added
        obtain ⟨rfl, hgroups⟩ := hclose
        refine ⟨front, behind, p, fuel, hfront.symm, completes_of_skip (by rw [hfront, hskip]), hgroups, ?_⟩
        simpa only [step?, closeGroup?_outermost hgroups, Option.map_some] using h
      · cases hstep : p.within.step? c behind with
        | none =>
          rw [hstep] at h
          cases h
        | some r =>
          obtain ⟨q', after⟩ := r
          rw [hstep] at h
          -- any other step is one that could be made without the group
          obtain ⟨q, rfl, hlower⟩ := step?_lifts (not_and_or.1 hclose) _ _ _ hstep
          obtain ⟨ds, rest, r, left, rfl, hcomplete, hgroups, hleft⟩ := ih h
          obtain ⟨middle, rfl⟩ := step?_suffix hlower
          have hcs : cs = front ++ c :: (middle ++ ds) ++ ')' :: rest := by
            rw [← hfront]
            simp only [List.append_assoc, List.cons_append]
          have hskipped : skip p.flags (front ++ c :: (middle ++ ds) ++ ')' :: rest) =
              c :: (middle ++ ds) ++ ')' :: rest := by
            rw [← hcs, hskip]
            simp only [List.append_assoc, List.cons_append]
          rw [← List.append_assoc] at hlower
          exact ⟨_, rest, r, left, hcs, hcomplete.step hgroups hskipped hlower, hgroups, hleft⟩

/-- A piece of source that is read to its end, with no group open, is an expression. -/
theorem Completes.run?_eq (h : Completes p cs q) (hgroups : q.groups = []) :
    p.run? (cs.length + 1) cs = some q.current := by
  obtain ⟨steps, hsteps, hrun⟩ := h
  have hfuel : cs.length + 1 = cs.length - steps + 1 + steps := by omega
  have hdone := hrun (cs.length - steps + 1) [] closing_nil
  rwa [List.append_nil, ← hfuel, run?_nil _ hgroups] at hdone

/-- Behind a piece of source that is complete by itself, there is nothing to close. -/
theorem Completes.run?_close (h : Completes p cs q) (hgroups : q.groups = []) {fuel : Nat}
    (hfuel : cs.length ≤ fuel) (more : List Char) : p.run? fuel (cs ++ ')' :: more) = none := by
  obtain ⟨steps, hsteps, hrun⟩ := h
  obtain ⟨left, rfl⟩ := Nat.exists_eq_add_of_le' (hsteps.trans hfuel)
  rw [hrun left _ (closing_cons more)]
  cases left with
  | zero => rfl
  | succ left =>
    rw [run?, skip_closing _ (closing_cons more)]
    simp [step?, closeGroup?, hgroups]

end Progress

/-! ## Sources that close a group too many -/

open Progress

/-- A text has the syntax of an expression, whatever the size of its automaton. -/
def WellFormed (source : String) : Prop :=
  ∃ e, initial.run? (source.toList.length + 1) source.toList = some e

/-- A source breaks out of the group that is put around it: one of its parentheses stands where a group would be
closed, and none is open. -/
def BreaksOut (source : String) : Prop :=
  ∃ first rest, source = first ++ ")" ++ rest ∧ WellFormed first ∧ ∀ more, ¬WellFormed (first ++ ")" ++ more)

/-- An expression is what is read of its source, if it is not nested too deep and its automaton is not too
large. -/
theorem parse?_eq_some_iff {source : String} {e : Regex} :
    parse? source = some e ↔
      initial.run? (source.toList.length + 1) source.toList = some e ∧ e.depth ≤ nestLimit ∧ e.fits := by
  rw [parse?]
  cases initial.run? (source.toList.length + 1) source.toList with
  | none => simp
  | some e' =>
    simp only [Option.bind_eq_bind, Option.bind_some, Bool.and_eq_true, decide_eq_true_eq]
    split
    case isTrue hsize =>
      refine ⟨?_, fun h => h.1⟩
      rintro ⟨⟩
      exact ⟨rfl, hsize⟩
    case isFalse hsize =>
      constructor
      · rintro ⟨⟩
      · rintro ⟨⟨⟩, h⟩
        exact absurd h hsize

/-- Without a parenthesis that closes, nothing is closed. -/
theorem not_breaksOut {source : String} (h : ')' ∉ source.toList) : ¬BreaksOut source := by
  rintro ⟨first, rest, rfl, -⟩
  simp at h

/-- An expression is nested no deeper than with anchors around it. -/
theorem depth_le_whole (e : Regex) : e.depth ≤ (whole e).depth := by
  simp [whole, depth, depthAll]

/-- The anchors take a state each. -/
theorem automatonBytes_whole (e : Regex) : (whole e).automatonBytes = e.automatonBytes + 2 * stateBytes := by
  simp only [automatonBytes, whole, part, partInSequence, Part.followedBy, Part.single, Part.linkBytes, stateBytes,
    Bool.false_eq_true, if_false]
  omega

/-- The automaton of an expression is no larger than with anchors around it. -/
theorem fits_of_whole {e : Regex} (h : (whole e).fits) : e.fits := by
  rw [fits, decide_eq_true_eq] at h ⊢
  rw [automatonBytes_whole] at h
  exact (Nat.le_add_right _ _).trans h

/-- Between the anchors, a source is read within one more group. -/
theorem run?_within_of_parse? {source : String} {e : Regex} (h : parse? (Pattern.anchored source) = some e) :
    ∃ fuel, initial.within.run? fuel (source.toList ++ [')', '$']) = some e := by
  obtain ⟨steps, hsteps, hanchor⟩ := reads_anchor
  have htext : (Pattern.anchored source).toList = "^(?:".toList ++ (source.toList ++ [')', '$']) := by
    rw [Pattern.anchored, String.toList_append, String.toList_append, List.append_assoc]
    rfl
  have hrun := (parse?_eq_some_iff.1 h).1
  obtain ⟨fuel, hfuel⟩ := Nat.exists_eq_add_of_le' (hsteps.trans (by rw [htext, List.length_append]; omega) :
    steps ≤ (Pattern.anchored source).toList.length + 1)
  rw [hfuel, htext, hanchor] at hrun
  exact ⟨fuel, hrun⟩

/-- The first parenthesis that closes the group around a source is the one behind it, or stands within it. -/
theorem closes_behind_or_within {cs first rest : List Char} (h : cs ++ [')', '$'] = first ++ ')' :: rest) :
    first = cs ∧ rest = ['$'] ∨ ∃ more, cs = first ++ ')' :: more := by
  rcases List.append_eq_append_iff.1 h with ⟨more, rfl, hmore⟩ | ⟨more, rfl, hmore⟩
  · rcases more with _ | ⟨c, _ | ⟨d, more⟩⟩
    · exact .inl ⟨by simp, (List.cons.inj hmore).2.symm⟩
    · simp at hmore
    · simp at hmore
  · cases more with
    | nil => exact .inl ⟨by simp, (List.cons.inj hmore).2⟩
    | cons c more =>
      obtain ⟨rfl, -⟩ := List.cons.inj hmore
      exact .inr ⟨more, rfl⟩

/-- A source breaks out if what stands in front of one of its parentheses is complete. -/
theorem breaksOut_of_completes {source : String} {first more : List Char} {q : Progress}
    (h : initial.Completes first q) (hgroups : q.groups = []) (hsource : source.toList = first ++ ')' :: more) :
    BreaksOut source := by
  refine ⟨String.ofList first, String.ofList more, ?_, ⟨q.current, ?_⟩, ?_⟩
  · rw [← String.toList_inj]
    simpa using hsource
  · rw [String.toList_ofList]
    exact h.run?_eq hgroups
  · rintro more ⟨e, he⟩
    have htext : (String.ofList first ++ ")" ++ more).toList = first ++ ')' :: more.toList := by simp
    rw [htext, h.run?_close hgroups (by rw [List.length_append]; omega)] at he
    cases he

/-- An accepted source is an expression by itself, or breaks out. -/
theorem parse?_of_anchored {source : String} {e : Regex} (h : parse? (Pattern.anchored source) = some e) :
    (∃ e', parse? source = some e' ∧ e = whole e') ∨ BreaksOut source := by
  obtain ⟨fuel, hwithin⟩ := run?_within_of_parse? h
  obtain ⟨first, rest, q, left, hsource, hfirst, hgroups, hleft⟩ := exists_completes hwithin
  obtain ⟨rfl, rfl⟩ | ⟨more, hmore⟩ := closes_behind_or_within hsource
  · obtain rfl : e = whole q.current := by
      match left, hleft with
      | left + 2, hleft => exact (Option.some.inj hleft).symm
    obtain ⟨-, hdepth, hfits⟩ := parse?_eq_some_iff.1 h
    exact .inl ⟨q.current, parse?_eq_some_iff.2
      ⟨hfirst.run?_eq hgroups, (depth_le_whole _).trans hdepth, fits_of_whole hfits⟩, rfl⟩
  · exact .inr (breaksOut_of_completes hfirst hgroups hmore)

end Regex

namespace Pattern

open Regex (BreaksOut parse? Spans)

/-- **A pattern matches whole inputs only, unless its source breaks out.** An accepted source is an expression by
itself, and the pattern accepts just the texts that match it from the first to the last character, if and only
if no parenthesis of the source closes the group that the anchors stand around. -/
theorem whole_inputs_only_iff {source : String} {p : Pattern} (h : ofSource? source = some p) :
    (∃ e, parse? source = some e ∧
      ∀ text : String, p.accepts text ↔ Spans text.toList.toArray e 0 text.toList.length) ↔
    ¬BreaksOut source := by
  obtain ⟨e, hparse, rfl⟩ := Option.map_eq_some_iff.1 h
  constructor
  · rintro ⟨e', he', -⟩ ⟨first, rest, rfl, -, hbreaks⟩
    exact hbreaks rest ⟨e', (Regex.parse?_eq_some_iff.1 he').1⟩
  · intro hstays
    obtain ⟨e', he', rfl⟩ := (Regex.parse?_of_anchored hparse).resolve_right hstays
    exact ⟨e', he', fun text => Regex.occursIn_whole⟩

/-- A choice of two characters, and a source that closes the group in front of its bar and opens another. -/
theorem sample_whole_inputs_only :
    (∃ p e, ofSource? "a|b" = some p ∧ parse? "a|b" = some e ∧
      ∀ text : String, p.accepts text ↔ Spans text.toList.toArray e 0 text.toList.length) ∧
    (∃ p, ofSource? "a)|(?:b" = some p) ∧ BreaksOut "a)|(?:b" := by
  obtain ⟨p, hp⟩ : ∃ p, ofSource? "a|b" = some p := Option.isSome_iff_exists.1 (by decide)
  obtain ⟨q, hq⟩ : ∃ q, ofSource? "a)|(?:b" = some q := Option.isSome_iff_exists.1 (by decide)
  refine ⟨?_, ⟨q, hq⟩, ?_⟩
  · obtain ⟨e, he, htexts⟩ := (whole_inputs_only_iff hp).2 (Regex.not_breaksOut (by decide))
    exact ⟨p, e, hp, he, htexts⟩
  · refine not_not.1 ((not_congr (whole_inputs_only_iff hq)).1 ?_)
    rintro ⟨e, he, -⟩
    rw [show parse? "a)|(?:b" = none by decide] at he
    cases he

/-- Not every accepted source is an expression by itself. -/
theorem not_forall_whole_inputs_only :
    ¬∀ (source : String) (p : Pattern), ofSource? source = some p →
      ∃ e, parse? source = some e ∧
        ∀ text : String, p.accepts text ↔ Spans text.toList.toArray e 0 text.toList.length := by
  intro hwhole
  obtain ⟨p, hp⟩ : ∃ p, ofSource? "a)|(?:b" = some p := Option.isSome_iff_exists.1 (by decide)
  obtain ⟨e, he, -⟩ := hwhole _ p hp
  rw [show parse? "a)|(?:b" = none by decide] at he
  cases he

example : (ofSource? "a)|(?:b").map (fun p => (p.accepts "a", p.accepts "ax", p.accepts "xb", p.accepts "xbx")) =
    some (true, true, true, false) := by
  decide

end Pattern

end ProvenanceTrail
