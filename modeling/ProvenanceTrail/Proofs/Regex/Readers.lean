import Mathlib.Data.List.Infix
import ProvenanceTrail.Regex.Parser

/-!
# What the readers of expressions look at

The parts of the parser take something from the front of a text and hand on the rest. They are put together
from a few operations (`Regex.Reader`), and what holds of the operations holds of them: what is handed on is
the end of the text, and what is read off a source that a parenthesis closes, without touching the parenthesis,
is read off that source whatever closing follows (`Regex.Reader.Agree`). Two readers are compared, not one with
itself, because the fuel of a reader goes by the length of the text.

A comment may reach behind the source, and then the parenthesis is touched. The one reader that looks further
than it takes is that of `\b`, since a brace behind it may open a name (`Regex.boundary?_same`).
-/

namespace ProvenanceTrail.Regex

/-! ## Readers -/

/-- Takes something from the front of a text and hands on the rest. -/
abbrev Reader := StateT (List Char) Option

namespace Reader

variable {α β : Type}

/-- Reads one character. -/
def next : Reader Char
  | [] => none
  | c :: cs => some (c, cs)

/-- Reads on in one way behind a character with a property, and in another way from where it stands when no
such character comes next. -/
def onNext (test : Char → Bool) (f : Char → Reader α) (g : Reader α) : Reader α
  | [] => g []
  | c :: cs => if test c then f c cs else g (c :: cs)

/-- Two readers in turn: the second starts where the first stopped. -/
theorem bind_apply (f : Reader α) (g : α → Reader β) (cs : List Char) :
    (f >>= g) cs = (f cs).bind fun r => g r.1 r.2 := rfl

/-- A value that is there is handed on, and nothing is read for it. -/
theorem lift_bind_apply (o : Option α) (g : α → Reader β) (cs : List Char) :
    ((StateT.lift o : Reader α) >>= g) cs = o.bind fun x => g x cs := by
  cases o <;> rfl

/-- A choice between readers is made before either of them reads. -/
theorem choice_apply (p : Prop) [Decidable p] (f g : Reader α) (cs : List Char) :
    (if p then f else g) cs = if p then f cs else g cs := by
  split <;> rfl

/-- The reader for a character goes on behind that character. -/
theorem onNext_self (c : Char) (f : Char → Reader α) (g : Reader α) (cs : List Char) :
    onNext (· == c) f g (c :: cs) = f c cs := by
  simp [onNext]

/-- In front of anything else the other reader goes on from here. -/
theorem onNext_other {c : Char} {cs : List Char} (h : ∀ rest, cs ≠ c :: rest) (f : Char → Reader α)
    (g : Reader α) : onNext (· == c) f g cs = g cs := by
  cases cs with
  | nil => rfl
  | cons d cs =>
    have hd : d ≠ c := by
      rintro rfl
      exact h cs rfl
    simp [onNext, hd]

/-- A reader that goes by the next character is known from what it does at one character and elsewhere. -/
theorem eq_onNext {c : Char} {f : Char → Reader α} {g r : Reader α} (hself : ∀ rest, r (c :: rest) = f c rest)
    (hother : ∀ cs, (∀ rest, cs ≠ c :: rest) → r cs = g cs) : r = onNext (· == c) f g := by
  funext cs
  by_cases hc : ∃ rest, cs = c :: rest
  · obtain ⟨rest, rfl⟩ := hc
    rw [onNext_self, hself]
  · rw [onNext_other (not_exists.1 hc), hother cs (not_exists.1 hc)]

/-- What may stand behind a piece of source that is complete by itself: nothing, or a closing parenthesis. -/
def Closing (cs : List Char) : Prop := ∀ c, cs.head? = some c → c = ')'

theorem closing_nil : Closing [] := by simp [Closing]

theorem closing_cons (cs : List Char) : Closing (')' :: cs) := by simp [Closing]

/-- Two readers agree on sources shorter than `size`: what the first reads off a source in front of a closing
parenthesis without touching it, the second reads off that source whatever closing follows. -/
structure Agree (size : Nat) (f g : Reader α) : Prop where
  suffix : ∀ {cs x rest}, f cs = some (x, rest) → rest <:+ cs
  same : ∀ {cs more x ds t}, cs.length < size → f (cs ++ ')' :: more) = some (x, ds ++ ')' :: more) →
    Closing t → g (cs ++ t) = some (x, ds ++ t)

/-- A reader that does not look behind a closing parenthesis that it leaves. -/
abbrev Local (f : Reader α) : Prop := ∀ size, Agree size f f

variable {size : Nat} {f f' : Reader α} {cs : List Char}

/-- A reader that takes a character leaves no more than what stands behind it. -/
theorem not_suffix_behind (ds : List Char) (c : Char) (more : List Char) : ¬ds ++ c :: more <:+ more := by
  intro h
  have hlength := h.length_le
  simp only [List.length_append, List.length_cons] at hlength
  omega

/-- What is left of a source and what follows it, when what follows is left. -/
theorem exists_of_suffix {ds more rest : List Char} (hds : ds ++ more <:+ rest) (hrest : rest <:+ cs ++ more) :
    ∃ ds', rest = ds' ++ more ∧ ds'.length ≤ cs.length := by
  obtain ⟨ds', rfl⟩ := (List.suffix_append ds more).trans hds
  exact ⟨ds', rfl, by simpa using hrest.length_le⟩

namespace Agree

/-- On no source at all, only what the first reader leaves matters. -/
theorem zero {g : Reader α} (h : Agree 0 f f') : Agree 0 f g := ⟨h.suffix, fun h => absurd h (Nat.not_lt_zero _)⟩

/-- A reader that fails agrees with all readers. -/
theorem fail : Agree size (fun _ => none) f := ⟨nofun, fun _ => nofun⟩

/-- Readers that read nothing agree. -/
theorem pure (x : α) : Agree size (Pure.pure x) (Pure.pure x : Reader α) where
  suffix h := by
    obtain ⟨-, rfl⟩ := Prod.mk.inj (Option.some.inj h)
    exact List.suffix_refl _
  same {cs more x ds t} _ h _ := by
    obtain ⟨rfl, hrest⟩ := Prod.mk.inj (Option.some.inj h)
    obtain rfl := List.append_cancel_right hrest
    rfl

/-- Readers that agree in both of their steps agree. -/
theorem bind {g g' : α → Reader β} (hf : Agree size f f') (hg : ∀ x, Agree size (g x) (g' x)) :
    Agree size (f >>= g) (f' >>= g') where
  suffix h := by
    obtain ⟨⟨x, rest⟩, hfirst, hnext⟩ := Option.bind_eq_some_iff.1 h
    exact ((hg x).suffix hnext).trans (hf.suffix hfirst)
  same hsize h ht := by
    obtain ⟨⟨x, rest⟩, hfirst, hnext⟩ := Option.bind_eq_some_iff.1 h
    obtain ⟨ds', rfl, hds'⟩ := exists_of_suffix ((hg x).suffix hnext) (hf.suffix hfirst)
    refine Option.bind_eq_some_iff.2 ⟨_, hf.same hsize hfirst ht, ?_⟩
    exact (hg x).same (hds'.trans_lt hsize) hnext ht

/-- Readers that agree do so when their results are changed in one way. -/
theorem map (hf : Agree size f f') (g : α → β) :
    Agree size (fun cs => (f cs).map fun r => (g r.1, r.2)) (fun cs => (f' cs).map fun r => (g r.1, r.2)) := by
  have heq (f : Reader α) : (fun cs => (f cs).map fun r => (g r.1, r.2)) = (f >>= fun x => Pure.pure (g x)) :=
    funext fun cs => Option.map_eq_bind
  rw [heq, heq]
  exact hf.bind fun x => pure (g x)

/-- Readers that hand on a value agree. -/
theorem lift (o : Option α) : Agree size (StateT.lift o : Reader α) (StateT.lift o) := by
  cases o with
  | none => exact fail
  | some x => exact pure x

/-- Readers that make one choice agree if both ways do. -/
theorem ite {p : Prop} [Decidable p] {g g' : Reader α} (hf : Agree size f f') (hg : Agree size g g') :
    Agree size (if p then f else g) (if p then f' else g') := by
  by_cases hp : p <;> simpa only [hp, if_true, if_false]

/-- The rest of a source is shorter behind a character. -/
theorem next_bind {g g' : Char → Reader α} (hg : ∀ c, Agree (size - 1) (g c) (g' c)) :
    Agree size (next >>= g) (next >>= g') where
  suffix {cs x rest} h := by
    cases cs with
    | nil => cases h
    | cons c cs => exact ((hg c).suffix h).trans (List.suffix_cons c cs)
  same {cs more x ds t} hsize h ht := by
    cases cs with
    | nil => exact absurd ((hg ')').suffix h) (not_suffix_behind ds ')' more)
    | cons c cs => exact (hg c).same (by rw [List.length_cons] at hsize; omega) h ht

/-- No closing passes a test that a closing parenthesis fails. -/
theorem onNext_closing {test : Char → Bool} (htest : test ')' = false) (g : Char → Reader α) {t : List Char}
    (ht : Closing t) : onNext test g f t = f t := by
  cases t with
  | nil => rfl
  | cons c t =>
    obtain rfl := ht c rfl
    simp [onNext, htest]

/-- Readers that go by the next character agree if both ways do. Behind it, one character less is to be agreed
on. -/
theorem onNext {test : Char → Bool} (htest : test ')' = false) {g g' : Char → Reader α}
    (hg : ∀ c, Agree (size - 1) (g c) (g' c)) (hf : Agree size f f') :
    Agree size (onNext test g f) (onNext test g' f') where
  suffix {cs x rest} h := by
    cases cs with
    | nil => exact hf.suffix h
    | cons c cs =>
      rw [Reader.onNext] at h
      split at h
      · exact ((hg c).suffix h).trans (List.suffix_cons c cs)
      · exact hf.suffix h
  same {cs more x ds t} hsize h ht := by
    cases cs with
    | nil =>
      rw [List.nil_append, onNext_closing htest _ (closing_cons _)] at h
      rw [List.nil_append, onNext_closing htest _ ht]
      exact hf.same hsize h ht
    | cons c cs =>
      rw [List.cons_append, Reader.onNext] at h ⊢
      split at h
      -- the next character is of the source, not the one that closes
      case isTrue hc =>
        rw [if_pos hc]
        exact (hg c).same (by rw [List.length_cons] at hsize; omega) h ht
      case isFalse hc =>
        rw [if_neg hc]
        exact hf.same hsize h ht

/-! ### Readers with fuel -/

section Fuel

/-- A reader that fails without fuel agrees with itself, if the fuel is more than a source is long. -/
theorem fuelled {ι : Type} {f : Nat → ι → Reader α} (hzero : ∀ i, f 0 i = fun _ => none)
    (hstep : ∀ size n m, (∀ i, Agree (size - 1) (f n i) (f m i)) →
      ∀ i, Agree size (f (n + 1) i) (f (m + 1) i)) (n : Nat) :
    ∀ size i, Agree size (f n i) (f size i) := by
  induction n with
  | zero =>
    intro size i
    rw [hzero]
    exact fail
  | succ n ih =>
    rintro (_ | size) i
    · exact (hstep 0 n 0 (ih 0) i).zero
    · exact hstep (size + 1) n size (ih size) i

variable {f : Nat → Reader α} {x : α}

/-- A reader whose fuel goes by the length of the text is local if it agrees with itself on different fuel. -/
theorem fuelled_length (h : ∀ n size, Agree size (f n) (f size)) : Local fun cs => f (cs.length + 1) cs :=
  fun _ => {
    suffix := fun hread => (h _ 0).suffix hread
    same := fun _ hread ht => (h _ _).same (by rw [List.length_append]; omega) hread ht }

/-- A reader that stops at a closing, with fuel or without, agrees with itself, if the fuel is not less than a
source is long. -/
theorem lasting (hzero : f 0 = Pure.pure x) (hstop : ∀ n {t}, Closing t → f n t = some (x, t))
    (hstep : ∀ size n m, Agree (size - 1) (f n) (f m) → Agree size (f (n + 1)) (f (m + 1))) (n : Nat) :
    ∀ m, Agree (min n m + 1) (f n) (f m) := by
  have hempty {n m : Nat} (hsuffix : ∀ {cs y rest}, f n cs = some (y, rest) → rest <:+ cs) :
      Agree 1 (f n) (f m) := by
    refine ⟨hsuffix, fun {cs more y ds t} hsize h ht => ?_⟩
    obtain rfl := List.length_eq_zero_iff.1 (Nat.lt_one_iff.1 hsize)
    rw [List.nil_append, hstop n (closing_cons _)] at h
    obtain ⟨rfl, hrest⟩ := Prod.mk.inj (Option.some.inj h)
    rw [List.self_eq_append_left.1 hrest]
    exact hstop m ht
  induction n with
  | zero =>
    intro m
    rw [Nat.zero_min]
    exact hempty (by rw [hzero]; exact (pure x : Agree 0 _ _).suffix)
  | succ n ih =>
    rintro (_ | m)
    · exact hempty (hstep (min n 0 + 2) n 0 (ih 0)).suffix
    · exact hstep (min (n + 1) (m + 1) + 1) n m (by simpa using ih m)

/-- A reader that stops before its fuel runs out is local, if there is fuel to spare. -/
theorem lasting_length (h : ∀ n m, Agree (min n m + 1) (f n) (f m)) (extra : Nat) :
    Local fun cs => f (cs.length + extra) cs :=
  fun _ => {
    suffix := fun hread => (h _ 0).suffix hread
    same := fun _ hread ht => (h _ _).same (by simp only [List.length_append]; omega) hread ht }

end Fuel

end Agree

end Reader

/-! ## Blanks and comments -/

open Reader

variable {flags : Flags} {size : Nat}

/-- Skips blanks. -/
def trimming : Reader Unit := fun cs => some ((), Text.trimStart cs)

/-- Skips the rest of a comment. -/
def comment : Reader Unit := fun cs => some ((), afterComment cs)

/-- Skips what the flags say. -/
def skipping (flags : Flags) : Reader Unit := fun cs => some ((), skip flags cs)

/-- There are no blanks to drop in front of a closing parenthesis. -/
theorem trimStart_closing {t : List Char} (ht : Closing t) : Text.trimStart t = t := by
  cases t with
  | nil => rfl
  | cons c t =>
    obtain rfl := ht c rfl
    rfl

/-- Blanks are dropped in the same way whatever closing follows. -/
theorem trimStart_append (cs : List Char) {t : List Char} (ht : Closing t) :
    Text.trimStart (cs ++ t) = Text.trimStart cs ++ t := by
  have hstays := trimStart_closing ht
  rw [Text.trimStart] at *
  rw [Text.trimStart, List.dropWhile_append]
  split
  case isTrue hempty => rw [hstays, List.isEmpty_iff.1 hempty, List.nil_append]
  case isFalse => rfl

/-- Dropping blanks is local. -/
theorem trimming_local : Local trimming := fun _ => {
  suffix := fun h => by
    obtain ⟨-, rfl⟩ := Prod.mk.inj (Option.some.inj h)
    exact List.dropWhile_suffix _
  same := fun {cs more x ds t} _ h ht => by
    rw [trimming, trimStart_append cs (closing_cons more)] at h
    rw [trimming, trimStart_append cs ht, List.append_cancel_right (Prod.mk.inj (Option.some.inj h)).2] }

/-- What stands behind a comment is the end of the text. -/
theorem afterComment_suffix (cs : List Char) : afterComment cs <:+ cs :=
  (List.drop_suffix _ _).trans (List.dropWhile_suffix _)

/-- Dropping a comment is local. -/
theorem comment_local : Local comment := fun _ => {
  suffix := fun h => by
    obtain ⟨-, rfl⟩ := Prod.mk.inj (Option.some.inj h)
    exact afterComment_suffix _
  same := fun {cs more x ds t} _ h ht => by
    have hrest := (Prod.mk.inj (Option.some.inj h)).2
    rw [afterComment, List.dropWhile_append] at hrest
    cases hline : cs.dropWhile (· != '\n') with
    | nil =>
      -- a comment without an end takes all that follows
      rw [hline, if_pos List.isEmpty_nil, List.dropWhile_cons_of_pos (by decide)] at hrest
      have hsuffix : afterComment more <:+ more := afterComment_suffix more
      rw [afterComment, hrest] at hsuffix
      exact absurd hsuffix (not_suffix_behind ds ')' more)
    | cons c after =>
      rw [hline, if_neg (by simp), List.cons_append, List.drop_one, List.tail_cons] at hrest
      rw [comment, afterComment, List.dropWhile_append, hline, if_neg (by simp), List.cons_append, List.drop_one,
        List.tail_cons, List.append_cancel_right hrest] }

/-- Skips blanks and comments, in at most `fuel` turns. -/
def blanks (fuel : Nat) : Reader Unit := fun cs => some ((), skipBlanksUpTo fuel cs)

/-- Blanks and comments are dropped in turn. -/
theorem blanks_succ (fuel : Nat) :
    blanks (fuel + 1) = (do
      trimming
      onNext (· == '#') (fun _ => do comment; blanks fuel) (pure ())) := by
  funext cs
  rw [bind_apply, blanks, skipBlanksUpTo, trimming, Option.bind_some]
  split
  case h_1 rest hrest => rw [hrest, onNext_self]; rfl
  case h_2 hrest => rw [onNext_other hrest]; rfl

/-- Dropping blanks and comments does not go by how much fuel is left. -/
theorem blanks_agree : ∀ n m, Agree (min n m + 1) (blanks n) (blanks m) := by
  refine Agree.lasting rfl (fun n t ht => ?_) fun size n m h => ?_
  · cases n with
    | zero => rfl
    | succ n =>
      rw [blanks_succ]
      change onNext _ _ _ (Text.trimStart t) = _
      rw [trimStart_closing ht, Agree.onNext_closing rfl _ ht]
      rfl
  · rw [blanks_succ, blanks_succ]
    exact (trimming_local _).bind fun _ =>
      .onNext (by decide) (fun _ => (comment_local _).bind fun _ => h) (.pure ())

/-- Skipping is local. -/
theorem skipping_local (flags : Flags) : Local (skipping flags) := by
  intro size
  have heq : skipping flags = fun cs => (if flags.skipBlanks then blanks (cs.length + 1) else pure ()) cs := by
    funext cs
    rw [skipping, skip]
    split <;> rfl
  rw [heq]
  split
  · exact Agree.lasting_length blanks_agree 1 size
  · exact .pure ()

/-- A character that is neither blank nor the start of a comment is not skipped. -/
theorem skip_cons {c : Char} (hblank : Text.isBlank c = false) (hcomment : c ≠ '#') (flags : Flags)
    (cs : List Char) : skip flags (c :: cs) = c :: cs := by
  have htrim : Text.trimStart (c :: cs) = c :: cs := List.dropWhile_cons_of_neg (by simp [hblank])
  rw [skip]
  split
  · rw [skipBlanksUpTo, htrim]
    split
    · exact absurd (List.cons.inj ‹_›).1 hcomment
    · rfl
  · rfl

/-- Nothing is skipped in front of a closing parenthesis. -/
theorem skip_closing (flags : Flags) {t : List Char} (ht : Closing t) : skip flags t = t := by
  cases t with
  | nil =>
    rw [skip]
    split <;> rfl
  | cons c t =>
    obtain rfl := ht c rfl
    exact skip_cons (by decide) (by decide) flags t

/-- What is left behind what is skipped is the end of the text. -/
theorem skip_suffix (flags : Flags) (cs : List Char) : skip flags cs <:+ cs :=
  (skipping_local flags 0).suffix (x := ()) rfl

/-- What is skipped in front of a parenthesis that stays is skipped whatever closing follows. -/
theorem skip_same {cs more ds t : List Char} (h : skip flags (cs ++ ')' :: more) = ds ++ ')' :: more)
    (ht : Closing t) : skip flags (cs ++ t) = ds ++ t := by
  have hread : skipping flags (cs ++ ')' :: more) = some ((), ds ++ ')' :: more) := by rw [skipping, h]
  exact (Prod.mk.inj (Option.some.inj ((skipping_local flags _).same (Nat.lt_succ_self _) hread ht))).2

/-- There is nothing to skip in an empty text. -/
theorem skipBlanksUpTo_nil (fuel : Nat) : skipBlanksUpTo fuel [] = [] := by
  cases fuel <;> rfl

/-- A comment that ends within a piece of source ends there whatever follows. -/
theorem afterComment_append {cs : List Char} (h : afterComment cs ≠ []) (t : List Char) :
    afterComment (cs ++ t) = afterComment cs ++ t := by
  rw [afterComment] at h ⊢
  rw [afterComment, List.dropWhile_append]
  cases hline : cs.dropWhile (· != '\n') with
  | nil => exact absurd (by rw [hline]; rfl) h
  | cons c after => rfl

/-- Where something of a piece of source is left, the same is left whatever closing follows. -/
theorem skipBlanksUpTo_append {n m : Nat} {cs t : List Char} (ht : Closing t) (hn : cs.length < n)
    (hm : cs.length < m) (h : skipBlanksUpTo n cs ≠ []) :
    skipBlanksUpTo m (cs ++ t) = skipBlanksUpTo n cs ++ t := by
  induction n generalizing m cs with
  | zero => exact absurd hn (Nat.not_lt_zero _)
  | succ n ih =>
    obtain ⟨m, rfl⟩ := Nat.exists_eq_succ_of_ne_zero (Nat.ne_zero_of_lt hm)
    simp only [skipBlanksUpTo, trimStart_append cs ht] at h ⊢
    cases htrim : Text.trimStart cs with
    | nil => simp [htrim] at h
    | cons c rest =>
      by_cases hc : c = '#'
      · subst hc
        simp only [htrim, List.cons_append] at h ⊢
        have hafter : afterComment rest ≠ [] := fun hnil => h (by rw [hnil, skipBlanksUpTo_nil])
        have hshort : (afterComment rest).length < cs.length := by
          have hrest : rest.length < (Text.trimStart cs).length := by rw [htrim]; exact Nat.lt_succ_self _
          have htrimmed : (Text.trimStart cs).length ≤ cs.length := (List.dropWhile_suffix _).length_le
          have hcomment : (afterComment rest).length ≤ rest.length := (afterComment_suffix rest).length_le
          omega
        rw [afterComment_append hafter]
        exact ih (by omega) (by omega) h
      · simp [hc]

/-- What is left of a source behind blanks and comments is left whatever closing follows. -/
theorem skip_append {cs t : List Char} (h : skip flags cs ≠ []) (ht : Closing t) :
    skip flags (cs ++ t) = skip flags cs ++ t := by
  rw [skip] at h ⊢
  rw [skip]
  split at h
  case isTrue hskip =>
    simp only [hskip, if_true]
    exact skipBlanksUpTo_append ht (Nat.lt_succ_self _) (by rw [List.length_append]; omega) h
  case isFalse hskip => simp only [hskip]; rfl

/-! ## Escapes -/

/-- Hexadecimal digits are read one by one. -/
theorem hexDigits?_succ (count : Nat) :
    hexDigits? flags (count + 1) = (do
      let c ← next
      let _ ← StateT.lift (Text.hexValue? c)
      skipping flags
      let ds ← (hexDigits? flags count : Reader (List Char))
      pure (c :: ds) : Reader (List Char)) := by
  funext cs
  cases cs with
  | nil => rfl
  | cons c cs =>
    rw [bind_apply, next, Option.bind_some, lift_bind_apply, hexDigits?]
    rfl

/-- Reading a number of hexadecimal digits is local. -/
theorem hexDigits?_local (count : Nat) : Local (hexDigits? flags count) := by
  induction count with
  | zero => exact fun _ => .pure []
  | succ count ih =>
    intro size
    rw [hexDigits?_succ]
    exact .next_bind fun c => (Agree.lift _).bind fun _ => (skipping_local flags _).bind fun _ =>
      (ih _).bind fun ds => .pure (c :: ds)

/-- Digits in braces are read one by one, up to the brace. -/
theorem hexBraced?_succ (fuel : Nat) :
    hexBraced? flags (fuel + 1) = (do
      skipping flags
      let c ← next
      if c = '\x7d' then do
        skipping flags
        pure []
      else do
        let _ ← StateT.lift (Text.hexValue? c)
        let ds ← (hexBraced? flags fuel : Reader (List Char))
        pure (c :: ds) : Reader (List Char)) := by
  funext cs
  rw [bind_apply, skipping, Option.bind_some, bind_apply, hexBraced?]
  split
  case h_1 hnil => rw [hnil]; rfl
  case h_2 hbrace => rw [hbrace]; rfl
  case h_3 c rest hne hrest =>
    rw [hrest, next, Option.bind_some, if_neg hne, lift_bind_apply]
    rfl

/-- Reading digits in braces does not go by how much fuel is left. -/
theorem hexBraced?_agree (n size : Nat) : Agree size (hexBraced? flags n) (hexBraced? flags size) := by
  refine Agree.fuelled (f := fun n flags => (hexBraced? flags n : Reader _)) (fun _ => rfl)
    (fun _ _ _ h flags => ?_) n size flags
  rw [hexBraced?_succ, hexBraced?_succ]
  exact (skipping_local flags _).bind fun _ => .next_bind fun c =>
    .ite ((skipping_local flags _).bind fun _ => .pure [])
      ((Agree.lift _).bind fun _ => (h flags).bind fun ds => .pure (c :: ds))

/-- Digits in braces, behind the opening one. -/
def braced (flags : Flags) : Reader (List Char) := fun cs => hexBraced? flags (cs.length + 1) cs

/-- The code of a character stands in braces, or has a number of digits. -/
theorem hexEscape?_eq (count : Nat) :
    hexEscape? flags (count + 1) = (do
      skipping flags
      onNext (· == '\x7b')
        (fun _ => do
          let ds ← braced flags
          if ds.isEmpty then StateT.lift none
          else do
            let c ← StateT.lift (charOfHex? ds)
            pure (ofChar flags c))
        (do
          let ds ← (hexDigits? flags (count + 1) : Reader (List Char))
          let c ← StateT.lift (charOfHex? ds)
          pure (ofChar flags c)) : Reader Regex) := by
  funext cs
  rw [bind_apply, skipping, Option.bind_some, hexEscape?]
  split
  case h_1 hnil => rw [hnil]; rfl
  case h_2 rest hbrace =>
    rw [hbrace, onNext_self, bind_apply]
    simp only [choice_apply, lift_bind_apply]
    rfl
  case h_3 hnil hbrace =>
    rw [onNext_other hbrace, bind_apply]
    simp only [lift_bind_apply]
    rfl

/-- Reading the code of a character is local. -/
theorem hexEscape?_local (count : Nat) : Local (hexEscape? flags (count + 1)) := by
  intro size
  rw [hexEscape?_eq]
  refine (skipping_local flags _).bind fun _ => .onNext (by decide) (fun _ => ?_) ?_
  · exact (Agree.fuelled_length hexBraced?_agree _).bind fun ds =>
      .ite (.lift none) ((Agree.lift _).bind fun c => .pure _)
  · exact (hexDigits?_local _ _).bind fun ds => (Agree.lift _).bind fun c => .pure _

/-- The name of a boundary is read character by character, up to the brace. -/
theorem boundaryName?_succ (fuel : Nat) :
    boundaryName? flags (fuel + 1) = (do
      let c ← next
      if c = '\x7d' then pure []
      else if isBoundaryChar c then do
        skipping flags
        let name ← (boundaryName? flags fuel : Reader (List Char))
        pure (c :: name)
      else StateT.lift none : Reader (List Char)) := by
  funext cs
  cases cs with
  | nil => rfl
  | cons c cs =>
    rw [bind_apply, next, Option.bind_some, choice_apply, choice_apply]
    split
    case isTrue hc =>
      obtain rfl : c = '\x7d' := hc
      rfl
    case isFalse hc => simp only [boundaryName?]; rfl

/-- Reading the name of a boundary does not go by how much fuel is left. -/
theorem boundaryName?_agree (n size : Nat) : Agree size (boundaryName? flags n) (boundaryName? flags size) := by
  refine Agree.fuelled (f := fun n flags => (boundaryName? flags n : Reader _)) (fun _ => rfl)
    (fun _ _ _ h flags => ?_) n size flags
  rw [boundaryName?_succ, boundaryName?_succ]
  exact .next_bind fun c => .ite (.pure []) (.ite
    ((skipping_local flags _).bind fun _ => (h flags).bind fun name => .pure (c :: name)) (.lift none))

/-- The name of an assertion in braces, behind the opening one. -/
def boundary (flags : Flags) : Reader Regex := do
  skipping flags
  let name ← fun cs => boundaryName? flags (cs.length + 1) cs
  let l ← StateT.lift (namedBoundary? name)
  pure (.look l)

/-- Reading a named boundary is local. -/
theorem boundary_local : Local (boundary flags) := fun _ =>
  (skipping_local flags _).bind fun _ => (Agree.fuelled_length boundaryName?_agree _).bind fun _ =>
    (Agree.lift _).bind fun _ => .pure _

/-- A named boundary has a name that is known. -/
theorem boundary_apply (cs : List Char) :
    boundary flags cs = (boundaryName? flags ((skip flags cs).length + 1) (skip flags cs)).bind fun r =>
      (namedBoundary? r.1).bind fun l => some (.look l, r.2) := by
  rw [boundary, bind_apply, skipping, Option.bind_some, bind_apply]
  simp only [lift_bind_apply]
  rfl

/-- A brace behind `\b` opens a name just if a character of names comes next. -/
theorem boundary?_brace (cs : List Char) :
    boundary? flags ('\x7b' :: cs) =
      match skip flags cs with
      | [] => none
      | c :: _ => if isBoundaryChar c then boundary flags cs else some (.look .wordBoundary, '\x7b' :: cs) := by
  simp only [boundary?]
  rw [boundary_apply]
  cases skip flags cs <;> rfl

/-- Without a brace, `\b` has no name. -/
theorem boundary?_other {cs : List Char} (h : ∀ rest, cs ≠ '\x7b' :: rest) :
    boundary? flags cs = some (.look .wordBoundary, cs) := by
  rw [boundary?]
  exact h

/-- A name starts with a letter or a hyphen. -/
theorem boundary?_of_boundary {cs : List Char} {r : Regex × List Char} (h : boundary flags cs = some r) :
    boundary? flags ('\x7b' :: cs) = some r := by
  rw [boundary?_brace]
  cases hskip : skip flags cs with
  | nil =>
    rw [boundary_apply, hskip] at h
    cases h
  | cons c rest =>
    by_cases hc : isBoundaryChar c
    · simpa only [hc, if_true] using h
    · rw [boundary_apply, hskip] at h
      by_cases hbrace : c = '\x7d'
      · subst hbrace
        cases h
      · simp [boundaryName?, hc] at h

/-- After `\b` comes an assertion. -/
theorem boundary?_spec {cs rest : List Char} {e : Regex} (h : boundary? flags cs = some (e, rest)) :
    (∃ l, e = .look l) ∧ rest <:+ cs := by
  by_cases hbrace : ∃ more, cs = '\x7b' :: more
  · obtain ⟨more, rfl⟩ := hbrace
    rw [boundary?_brace] at h
    split at h
    case h_1 => cases h
    case h_2 c =>
      split at h
      case isTrue =>
        have hsuffix := (boundary_local 0).suffix h
        rw [boundary_apply] at h
        obtain ⟨⟨name, after⟩, -, h⟩ := Option.bind_eq_some_iff.1 h
        obtain ⟨l, -, h⟩ := Option.bind_eq_some_iff.1 h
        exact ⟨⟨l, (Prod.mk.inj (Option.some.inj h)).1.symm⟩, hsuffix.trans (List.suffix_cons _ _)⟩
      case isFalse =>
        obtain ⟨rfl, rfl⟩ := Prod.mk.inj (Option.some.inj h)
        exact ⟨⟨_, rfl⟩, List.suffix_refl _⟩
  · rw [boundary?_other (not_exists.1 hbrace)] at h
    obtain ⟨rfl, rfl⟩ := Prod.mk.inj (Option.some.inj h)
    exact ⟨⟨_, rfl⟩, List.suffix_refl _⟩

/-- A brace that is left in front of nothing but blanks and comments: only what follows decides whether it
belongs to the assertion in front of it. -/
def Dangling (flags : Flags) (cs : List Char) : Prop := ∃ gap, cs = '\x7b' :: gap ∧ skip flags gap = []

/-- What follows `\b` is read in the same way whatever closing follows, unless it dangles. -/
theorem boundary?_same {cs more ds t : List Char} {e : Regex}
    (h : boundary? flags (cs ++ ')' :: more) = some (e, ds ++ ')' :: more)) (ht : Closing t) :
    boundary? flags (cs ++ t) = some (e, ds ++ t) ∨ Dangling flags ds := by
  by_cases hbrace : ∃ rest, cs = '\x7b' :: rest
  · obtain ⟨rest, rfl⟩ := hbrace
    rw [List.cons_append, boundary?_brace] at h
    split at h
    case h_1 => cases h
    case h_2 c after hskip =>
      split at h
      case isTrue hc => exact .inl (boundary?_of_boundary ((boundary_local _).same (Nat.lt_succ_self _) h ht))
      case isFalse hc =>
        obtain ⟨rfl, hrest⟩ := Prod.mk.inj (Option.some.inj h)
        obtain rfl : '\x7b' :: rest = ds := List.append_cancel_right (by simpa using hrest)
        -- with blanks only behind the brace, what it means depends on what closes
        by_cases hgap : skip flags rest = []
        · exact .inr ⟨rest, rfl, hgap⟩
        · refine .inl ?_
          obtain ⟨d, left, hleft⟩ := List.exists_cons_of_ne_nil hgap
          obtain rfl : d = c := by
            rw [skip_append hgap (closing_cons more), hleft] at hskip
            exact (List.cons.inj hskip).1
          rw [List.cons_append, boundary?_brace, skip_append hgap ht, hleft, List.cons_append]
          simp only [hc]
          rfl
  · have hother {t : List Char} (ht : Closing t) (rest : List Char) : cs ++ t ≠ '\x7b' :: rest := by
      cases cs with
      | nil =>
        rintro rfl
        exact absurd (ht _ rfl) (by decide)
      | cons c cs =>
        rintro hcs
        obtain ⟨rfl, -⟩ := List.cons.inj hcs
        exact hbrace ⟨cs, rfl⟩
    rw [boundary?_other (hother (closing_cons more))] at h
    obtain ⟨rfl, hrest⟩ := Prod.mk.inj (Option.some.inj h)
    rw [boundary?_other (hother ht), List.append_cancel_right hrest]
    exact .inl rfl

/-- An escape other than `\b` takes what belongs to it. -/
theorem escape?_local {c : Char} (hc : c ≠ 'b') : Local fun cs => escape? flags (c :: cs) := by
  intro size
  by_cases hx : c = 'x'
  · subst hx
    exact hexEscape?_local 1 size
  by_cases hu : c = 'u'
  · subst hu
    exact hexEscape?_local 3 size
  by_cases hU : c = 'U'
  · subst hU
    exact hexEscape?_local 7 size
  simp only [escape?, beq_iff_eq, hx, hu, hU, if_false]
  by_cases hself : isEscapable c
  · simp only [hself, if_true]
    exact .pure _
  simp only [hself, Bool.false_eq_true, if_false]
  split
  case h_15 => exact absurd rfl hc
  case h_19 => exact .fail
  all_goals exact .pure _

/-- An escape takes a character at least, and hands on the end of the text. -/
theorem escape?_suffix {cs rest : List Char} {e : Regex} (h : escape? flags cs = some (e, rest)) :
    rest <:+ cs.tail := by
  cases cs with
  | nil => cases h
  | cons c cs =>
    by_cases hc : c = 'b'
    · subst hc
      have hboundary : boundary? flags cs = some (e, rest) := h
      exact (boundary?_spec hboundary).2
    · exact (escape?_local hc 0).suffix h

/-- An escape is read in the same way whatever closing follows, unless it leaves a brace that may belong to
it. -/
theorem escape?_same {cs more ds t : List Char} {e : Regex}
    (h : escape? flags (cs ++ ')' :: more) = some (e, ds ++ ')' :: more)) (ht : Closing t) :
    escape? flags (cs ++ t) = some (e, ds ++ t) ∨ (∃ l, e = .look l) ∧ Dangling flags ds := by
  cases cs with
  | nil => exact absurd (escape?_suffix h) (not_suffix_behind ds ')' more)
  | cons c cs =>
    by_cases hc : c = 'b'
    · subst hc
      have hboundary : boundary? flags (cs ++ ')' :: more) = some (e, ds ++ ')' :: more) := h
      exact (boundary?_same hboundary ht).imp id fun hgap => ⟨(boundary?_spec hboundary).1, hgap⟩
    · exact .inl ((escape?_local hc _).same (Nat.lt_succ_self _) h ht)

end ProvenanceTrail.Regex
