import ProvenanceTrail.Proofs.Regex.Classes

/-!
# What a step of the parser looks at

Repetitions and groups are put together from the operations of readers, and so is each step of the parser. It
hands on the end of a text (`Regex.Progress.step?_suffix`), and unless it leaves a brace behind `\b`, it goes the
same way whatever closing follows the source (`Regex.Progress.step?_same`).
-/

namespace ProvenanceTrail.Regex

open Reader

variable {flags : Flags} {size : Nat}

/-! ## Repetitions -/

/-- Decimal digits, with what is skipped behind each. -/
def digits (flags : Flags) (fuel : Nat) : Reader (List Char) := fun cs => some (countDigits flags fuel cs)

/-- Decimal digits are read one by one. -/
theorem digits_succ (fuel : Nat) :
    digits flags (fuel + 1) =
      onNext Char.isDigit
        (fun c => do
          skipping flags
          let ds ← digits flags fuel
          pure (c :: ds))
        (pure []) := by
  funext cs
  cases cs with
  | nil => rfl
  | cons c cs =>
    rw [digits, countDigits, onNext]
    split <;> rfl

/-- Reading decimal digits does not go by how much fuel is left. -/
theorem digits_agree : ∀ n m, Agree (min n m + 1) (digits flags n) (digits flags m) := by
  refine Agree.lasting rfl (fun n t ht => ?_) fun _ _ _ h => ?_
  · cases n with
    | zero => rfl
    | succ n =>
      rw [digits_succ, Agree.onNext_closing (by decide) _ ht]
      rfl
  · rw [digits_succ, digits_succ]
    exact .onNext (by decide) (fun _ => (skipping_local flags _).bind fun _ => h.bind fun _ => .pure _) (.pure [])

/-- A count has digits, between blanks, and is below 2^32. -/
theorem count?_eq :
    count? flags = (do
      trimming
      let ds ← fun cs => digits flags cs.length cs
      trimming
      skipping flags
      if ds.isEmpty then StateT.lift none
      else if Number.ofDigits ds < Nat.pow 2 32 then pure (Number.ofDigits ds) else StateT.lift none :
        Reader Nat) := by
  funext cs
  rw [bind_apply, trimming, Option.bind_some, bind_apply, digits, Option.bind_some, bind_apply, trimming,
    Option.bind_some, bind_apply, skipping, Option.bind_some, choice_apply, choice_apply, count?]
  rfl

/-- A count has a digit. -/
theorem count?_nil : count? flags [] = none := rfl

/-- Reading a count is local. -/
theorem count?_local : Local (count? flags) := by
  intro size
  rw [count?_eq]
  exact (trimming_local _).bind fun _ => (Agree.lasting_length digits_agree 0 _).bind fun _ =>
    (trimming_local _).bind fun _ => (skipping_local flags _).bind fun _ =>
      .ite (.lift none) (.ite (.pure _) (.lift none))

/-- The question mark that may follow a repetition. -/
def laziness : Reader Unit := onNext (· == '?') (fun _ => pure ()) (pure ())

/-- Reading the question mark behind a repetition is local. -/
theorem laziness_local : Local laziness := fun _ => .onNext (by decide) (fun _ => .pure ()) (.pure ())

/-- The question mark behind a repetition is dropped. -/
theorem laziness_apply (cs : List Char) : laziness cs = some ((), afterRepetition cs) := by
  have heq : (fun cs => some ((), afterRepetition cs)) = laziness := by
    refine eq_onNext (fun rest => rfl) fun cs hother => ?_
    rw [afterRepetition]
    · rfl
    · exact hother
  rw [← heq]

/-- The counts of a repetition. -/
def counts (flags : Flags) : Reader (Nat × Option Nat) := fun cs =>
  (counted? flags cs).map fun r => ((r.1, r.2.1), r.2.2)

/-- What follows the counts of a repetition. -/
def afterCounts (flags : Flags) (least : Nat) (most : Option Nat) : Reader (Nat × Option Nat) := do
  skipping flags
  laziness
  pure (least, most)

/-- What follows the least count of a repetition and a comma. -/
def greatest (flags : Flags) (least : Nat) : Reader (Nat × Option Nat) := do
  skipping flags
  onNext (· == '\x7d') (fun _ => afterCounts flags least none) (do
    let most ← (count? flags : Reader Nat)
    let c ← next
    if c = '\x7d' then if most < least then StateT.lift none else afterCounts flags least (some most)
    else StateT.lift none)

/-- What follows the counts of a repetition is skipped, with a question mark. -/
theorem afterCounts_apply (least : Nat) (most : Option Nat) (cs : List Char) :
    afterCounts flags least most cs = some ((least, most), afterRepetition (skip flags cs)) := by
  rw [afterCounts, bind_apply, skipping, Option.bind_some, bind_apply, laziness_apply]
  rfl

/-- The greatest count may be left out, and is not below the least. -/
theorem greatest_apply (least : Nat) (cs : List Char) :
    greatest flags least cs =
      ((match skip flags cs with
        | [] => none
        | '\x7d' :: rest => some (least, none, afterRepetition (skip flags rest))
        | rest => (count? flags rest).bind fun r =>
          match r.2 with
          | '\x7d' :: rest =>
            if r.1 < least then none else some (least, some r.1, afterRepetition (skip flags rest))
          | _ => none : Option (Nat × Option Nat × List Char)).map fun r => ((r.1, r.2.1), r.2.2)) := by
  rw [greatest, bind_apply, skipping, Option.bind_some]
  split
  case h_1 hnil => rw [hnil]; rfl
  case h_2 rest hbrace => rw [hbrace, onNext_self, afterCounts_apply]; rfl
  case h_3 hnil hbrace =>
    rw [onNext_other hbrace, bind_apply, Option.map_bind]
    congr 1
    funext r
    obtain ⟨most, rest⟩ := r
    cases rest with
    | nil => rfl
    | cons c rest =>
      rw [bind_apply, next, Option.bind_some, choice_apply, Function.comp_apply]
      by_cases hc : c = '\x7d'
      · subst hc
        rw [if_pos rfl, choice_apply, afterCounts_apply]
        dsimp only
        split <;> rfl
      · rw [if_neg hc]
        split
        · exact absurd (List.cons.inj ‹_›).1 hc
        · rfl

/-- A repetition has one count, or a least and a greatest with a comma between them. -/
theorem counts_eq :
    counts flags = (do
      skipping flags
      let least ← (count? flags : Reader Nat)
      let c ← next
      if c = '\x7d' then afterCounts flags least (some least)
      else if c = ',' then greatest flags least
      else StateT.lift none) := by
  funext cs
  rw [bind_apply, skipping, Option.bind_some, bind_apply, counts, counted?]
  cases count? flags (skip flags cs) with
  | none => rfl
  | some r =>
    obtain ⟨least, rest⟩ := r
    cases rest with
    | nil => rfl
    | cons c rest =>
      rw [Option.bind_some, bind_apply, next, Option.bind_some, choice_apply, choice_apply]
      by_cases hclose : c = '\x7d'
      · subst hclose
        rw [if_pos rfl, afterCounts_apply]
        rfl
      rw [if_neg hclose]
      by_cases hcomma : c = ','
      · subst hcomma
        rw [if_pos rfl, greatest_apply]
        rfl
      · rw [if_neg hcomma]
        dsimp only [Option.bind_eq_bind, Option.bind_some]
        split
        · exact absurd (List.cons.inj ‹_›).1 hclose
        · exact absurd (List.cons.inj ‹_›).1 hcomma
        · rfl

/-- Reading what follows the counts of a repetition is local. -/
theorem afterCounts_local (least : Nat) (most : Option Nat) : Local (afterCounts flags least most) := fun _ =>
  (skipping_local flags _).bind fun _ => (laziness_local _).bind fun _ => .pure _

/-- Reading the counts of a repetition is local. -/
theorem counts_local : Local (counts flags) := by
  intro size
  rw [counts_eq]
  refine (skipping_local flags _).bind fun _ => (count?_local _).bind fun least => .next_bind fun c =>
    .ite (afterCounts_local _ _ _) (.ite ?_ (.lift none))
  exact (skipping_local flags _).bind fun _ => .onNext (by decide) (fun _ => afterCounts_local _ _ _)
    ((count?_local _).bind fun most => .next_bind fun c =>
      .ite (.ite (.lift none) (afterCounts_local _ _ _)) (.lift none))

/-! ## Groups -/

/-- Flags, and the character that ends them. -/
def letters (flags : Flags) (negated : Bool) (seen : List Char) (last : Char) : Reader (Flags × Char) := fun cs =>
  (flags? flags negated seen last cs).map fun r => ((r.1, r.2.1), r.2.2)

/-- Flags are read letter by letter, up to a colon or a parenthesis. None is set twice, and a hyphen turns off
what follows. -/
theorem letters_eq (flags : Flags) (negated : Bool) (seen : List Char) (last : Char) :
    letters flags negated seen last = (do
      let c ← next
      if c == ':' || c == ')' then if last == '-' then StateT.lift none else pure (flags, c)
      else if c == '-' then if negated then StateT.lift none else letters flags true seen c
      else if seen.contains c then StateT.lift none
      else do
        let changed ← StateT.lift (setFlag? flags (!negated) c)
        letters changed negated (c :: seen) c) := by
  funext cs
  cases cs with
  | nil => rfl
  | cons c cs =>
    rw [bind_apply, next, Option.bind_some, letters, flags?]
    simp only [choice_apply, lift_bind_apply]
    split
    · split <;> rfl
    split
    · split <;> rfl
    split
    · rfl
    · cases setFlag? flags (!negated) c <;> rfl

/-- Flags hand on the end of the text. -/
theorem letters_suffix {flags : Flags} {negated : Bool} {seen : List Char} {last : Char} {cs rest : List Char}
    {r : Flags × Char} (h : letters flags negated seen last cs = some (r, rest)) : rest <:+ cs := by
  induction cs generalizing flags negated seen last with
  | nil => cases h
  | cons c cs ih =>
    rw [letters_eq, bind_apply, next, Option.bind_some] at h
    simp only [choice_apply, lift_bind_apply] at h
    refine List.IsSuffix.trans ?_ (List.suffix_cons c cs)
    split at h
    · split at h
      · cases h
      · obtain ⟨-, rfl⟩ := Prod.mk.inj (Option.some.inj h)
        exact List.suffix_refl _
    split at h
    · split at h
      · cases h
      · exact ih h
    split at h
    · cases h
    · obtain ⟨changed, -, h⟩ := Option.bind_eq_some_iff.1 h
      exact ih h

/-- Reading flags is the same on sources of any length. -/
theorem letters_agree (size : Nat) (flags : Flags) (negated : Bool) (seen : List Char) (last : Char) :
    Agree size (letters flags negated seen last) (letters flags negated seen last) := by
  induction size generalizing flags negated seen last with
  | zero => exact ⟨letters_suffix, fun h => absurd h (Nat.not_lt_zero _)⟩
  | succ size ih =>
    rw [letters_eq]
    exact .next_bind fun c => .ite (.ite (.lift none) (.pure _)) (.ite (.ite (.lift none) (ih _ _ _ _))
      (.ite (.lift none) ((Agree.lift _).bind fun _ => ih _ _ _ _)))

/-- The name of a group, and what ends it. -/
def groupName : Reader String := do
  let name ← upTo '>'
  if name.head?.any (isGroupNameChar true) && name.tail.all (isGroupNameChar false) then pure (String.ofList name)
  else StateT.lift none

/-- The name of a group is read as its parts are. -/
theorem groupName?_eq : groupName? = groupName := by
  funext cs
  rw [groupName, bind_apply, upTo, groupName?]
  cases hdrop : cs.dropWhile (· != '>') with
  | nil => cases htake : cs.takeWhile (· != '>') <;> rfl
  | cons c rest =>
    obtain rfl := eq_of_dropWhile hdrop
    cases htake : cs.takeWhile (· != '>') with
    | nil => rfl
    | cons first more =>
      rw [Option.bind_some, choice_apply]
      rfl

/-- Reading the name of a group is local. -/
theorem groupName?_local : Local groupName? := by
  intro size
  rw [groupName?_eq]
  exact (upTo_local _ _).bind fun _ => .ite (.pure _) (.lift none)

/-- Refusing a parenthesis at the front keeps agreement. -/
theorem Reader.Agree.unless_closed {α : Type} {f : Reader α} (hf : Agree size f f) :
    Agree size (fun cs => if cs.head? == some ')' then none else f cs)
      (fun cs => if cs.head? == some ')' then none else f cs) where
  suffix h := by
    split at h
    · cases h
    · exact hf.suffix h
  same {cs more x ds t} hsize h ht := by
    cases cs with
    | nil => cases h
    | cons c cs =>
      rw [List.cons_append, List.head?_cons] at h ⊢
      by_cases hc : (some c == some ')') = true
      · rw [if_pos hc] at h
        cases h
      · rw [if_neg hc] at h ⊢
        exact hf.same hsize h ht

namespace Progress

variable {p : Progress}

/-- Opens a group, unless that would nest too deep. -/
def opening (p : Progress) (flags : Flags) (numbered : Bool) : Reader Progress :=
  StateT.lift (p.openGroup? flags numbered)

/-- The name of a group and what is in front of its first item. -/
def naming (p : Progress) : Reader Progress := do
  let name ← (groupName? : Reader String)
  if p.names.contains name then StateT.lift none
  else opening { p with names := name :: p.names } p.flags true

/-- Flags for what follows, or for a group. -/
def flagging (p : Progress) : Reader Progress := fun cs =>
  if cs.head? == some ')' then none
  else
    (letters p.flags false [] '?' >>= fun r =>
      if r.2 == ':' then opening p r.1 false else pure { p with flags := r.1 }) cs

/-- What follows a question mark at the front of a group. -/
def marked (p : Progress) : Reader Progress :=
  onNext (· == '<')
    (fun _ => onNext (· == '=') (fun _ => StateT.lift none)
      (onNext (· == '!') (fun _ => StateT.lift none) (naming p)))
    (onNext (· == 'P') (fun _ => onNext (· == '<') (fun _ => naming p) (StateT.lift none)) (flagging p))

/-- A named group opens behind its name. -/
theorem naming_apply (p : Progress) (cs : List Char) : naming p cs = group?.named p cs := by
  rw [naming, bind_apply, group?.named]
  simp only [choice_apply]
  rfl

/-- Flags hold for a group of their own behind a colon, and for what follows behind a parenthesis. -/
theorem flagging_apply (p : Progress) (cs : List Char) :
    flagging p cs = (flags? p.flags false [] '?' cs).bind fun r =>
      if r.2.1 == ':' then (p.openGroup? r.1 false).bind fun q => some (q, r.2.2)
      else if cs.head? == some ')' then none
      else some ({ p with flags := r.1 }, r.2.2) := by
  rw [flagging]
  split
  case isTrue hclose =>
    obtain ⟨rest, rfl⟩ := List.head?_eq_some_iff.1 (eq_of_beq hclose)
    rfl
  case isFalse hclose =>
    rw [bind_apply, letters]
    simp only [choice_apply]
    cases flags? p.flags false [] '?' cs <;> rfl

/-- A group has a question mark with what belongs to it, or is numbered. -/
theorem group?_eq (p : Progress) :
    p.group? = (do
      skipping p.flags
      onNext (· == '?') (fun _ => marked p) (opening p p.flags true) : Reader Progress) := by
  funext cs
  rw [bind_apply, skipping, Option.bind_some, group?]
  split
  case h_1 hlook => rw [hlook, onNext_self, marked]; rfl
  case h_2 hlook => rw [hlook, onNext_self, marked]; rfl
  case h_3 hlook => rw [hlook, onNext_self, marked]; rfl
  case h_4 hlook => rw [hlook, onNext_self, marked]; rfl
  case h_5 rest hname =>
    rw [hname, onNext_self, marked, onNext_other (by simp), onNext_self, onNext_self, naming_apply]
  case h_6 rest heq hno hname =>
    rw [hname, onNext_self, marked, onNext_self, ← naming_apply, onNext_other heq, onNext_other hno]
  case h_7 rest _ _ _ _ hcapital hname hmark =>
    rw [hmark, onNext_self, marked, onNext_other hname]
    by_cases hP : ∃ more, rest = 'P' :: more
    · obtain ⟨more, rfl⟩ := hP
      rw [onNext_self, onNext_other fun after h => hcapital after (by rw [h])]
      rfl
    · rw [onNext_other (not_exists.1 hP), flagging_apply]
      rfl
  case h_8 hmark => rw [onNext_other hmark]; rfl

/-- Reading a named group is local. -/
theorem naming_local : Local (naming p) := fun _ =>
  (groupName?_local _).bind fun _ => .ite (.lift none) (.lift _)

/-- Reading flags is local. -/
theorem flagging_local : Local (flagging p) := fun _ =>
  ((letters_agree _ _ _ _ _).bind fun _ => .ite (.lift _) (.pure _)).unless_closed

/-- Reading what follows a question mark is local. -/
theorem marked_local : Local (marked p) := fun _ =>
  .onNext (by decide)
    (fun _ => .onNext (by decide) (fun _ => .lift none)
      (.onNext (by decide) (fun _ => .lift none) (naming_local _)))
    (.onNext (by decide) (fun _ => .onNext (by decide) (fun _ => naming_local _) (.lift none)) (flagging_local _))

/-- Reading the front of a group is local. -/
theorem group?_local : Local p.group? := by
  intro size
  rw [group?_eq]
  exact (skipping_local _ _).bind fun _ => .onNext (by decide) (fun _ => marked_local _) (.lift _)

/-- Repeats the last item, behind the question mark that may follow. -/
theorem repeating_local (o : Option Progress) :
    Local (fun cs => o.map fun q => (q, afterRepetition cs) : Reader Progress) := by
  have heq : (fun cs => o.map fun q => (q, afterRepetition cs)) = (do laziness; StateT.lift o : Reader Progress) := by
    funext cs
    rw [bind_apply, laziness_apply]
    cases o <;> rfl
  intro size
  rw [heq]
  exact (laziness_local _).bind fun _ => .lift o

/-- A brace repeats the last item by the counts in it. -/
theorem counting_eq (p : Progress) :
    p.step? '\x7b' = (do let r ← counts p.flags; StateT.lift (p.repeatLast? r.1 r.2) : Reader Progress) := by
  funext cs
  rw [bind_apply, counts, step?]
  cases counted? p.flags cs with
  | none => rfl
  | some r =>
    obtain ⟨least, most, rest⟩ := r
    rw [Option.map_some, Option.bind_some]
    dsimp only
    cases p.repeatLast? least most <;> rfl

/-- A step other than an escape takes what belongs to it. -/
theorem step?_local {c : Char} (hc : c ≠ '\\') : Local (p.step? c) := by
  intro size
  by_cases hbrace : c = '\x7b'
  · subst hbrace
    rw [counting_eq]
    exact (counts_local _).bind fun _ => .lift _
  unfold step?
  split
  case h_1 => exact group?_local size
  case h_2 =>
    cases p.closeGroup? with
    | none => exact .fail
    | some q => exact .pure q
  case h_3 => exact .pure _
  case h_4 => exact (class?_local size).map p.add
  case h_5 => exact repeating_local _ _
  case h_6 => exact repeating_local _ _
  case h_7 => exact repeating_local _ _
  case h_8 => exact absurd rfl hbrace
  case h_9 => exact absurd rfl hc
  all_goals exact .pure _

/-- A step hands on the end of a text. -/
theorem step?_suffix {p q : Progress} {c : Char} {cs rest : List Char} (h : p.step? c cs = some (q, rest)) :
    rest <:+ cs := by
  by_cases hc : c = '\\'
  · subst hc
    obtain ⟨⟨e, after⟩, hescape, hq⟩ := Option.map_eq_some_iff.1 h
    obtain ⟨-, rfl⟩ := Prod.mk.inj hq
    exact (escape?_suffix hescape).trans (List.tail_suffix _)
  · exact (step?_local hc 0).suffix h

/-- A step goes the same way whatever closing follows, unless it leaves a brace that may belong to it. -/
theorem step?_same {p q : Progress} {c : Char} {cs more ds t : List Char}
    (h : p.step? c (cs ++ ')' :: more) = some (q, ds ++ ')' :: more)) (ht : Closing t) :
    p.step? c (cs ++ t) = some (q, ds ++ t) ∨ q.flags = p.flags ∧ Dangling q.flags ds := by
  by_cases hc : c = '\\'
  · subst hc
    obtain ⟨⟨e, after⟩, hescape, hq⟩ := Option.map_eq_some_iff.1 h
    obtain ⟨rfl, rfl⟩ := Prod.mk.inj hq
    refine (escape?_same hescape ht).imp (fun hsame => ?_) fun hgap => ⟨rfl, hgap.2⟩
    rw [step?, hsame]
    rfl
  · exact .inl ((step?_local hc _).same (Nat.lt_succ_self _) h ht)

end Progress

end ProvenanceTrail.Regex
