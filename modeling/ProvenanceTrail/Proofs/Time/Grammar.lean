import Mathlib.Data.List.TakeWhile
import ProvenanceTrail.Time.Timestamp

/-!
# The grammars of timestamps

The two readers of timestamps take the parts of a text in the same order and differ in how a part may be
written (`Timestamp.Grammar`). Each accepts exactly the texts of its grammar (`ofText?_eq_some_iff` for
documents, `ofStrictText?_eq_some_iff` for conditions).

A reader takes as much as it can of each part. That this is the part which the grammar means depends on what
comes next: a number is followed by no digit, a run of blanks by no blank, a fraction neither by a digit nor
by a point. `Reader.Reads` collects, for each part, both directions and what the part begins with.
-/

namespace ProvenanceTrail.Timestamp

/-- The parts that a text names. -/
structure Parts where
  year : Int
  month : Nat
  day : Nat
  hour : Nat
  minute : Nat
  second : Nat
  nanosecond : Nat
  offset : Int

/-- The timestamp with these parts, if there is one. -/
def Parts.timestamp? (p : Parts) : Option Timestamp :=
  ofParts? p.year p.month p.day p.hour p.minute p.second p.nanosecond p.offset

/-! ## Parts of a text -/

/-- A number of so many decimal digits. -/
structure IsNumber (least most : Nat) (cs : List Char) (n : Nat) : Prop where
  digits : ∀ c ∈ cs, c.isDigit = true
  atLeast : least ≤ cs.length
  atMost : cs.length ≤ most
  value : Number.ofDigits cs = n

/-- Any number of blanks. -/
def Blanks (cs : List Char) : Prop := ∀ c ∈ cs, Text.isBlank c = true

/-- A fraction of a second in nanoseconds: nothing, or a point and digits, of which nine count. -/
inductive IsFraction : List Char → Nat → Prop
  | none : IsFraction [] 0
  | digits {ds : List Char} (hds : ∀ c ∈ ds, c.isDigit = true) (hne : ds ≠ []) :
    IsFraction ('.' :: ds) (Number.ofDigits (ds.take 9) * Nat.pow 10 (9 - (ds.take 9).length))

/-- An offset: universal time, or hours and minutes ahead of it or behind it. -/
inductive IsOffset (separator : List Char → Prop) : List Char → Int → Prop
  | universal {c : Char} (hc : c = 'Z' ∨ c = 'z') : IsOffset separator [c] 0
  | ahead {hs ss ms : List Char} {h m : Nat} (hours : IsNumber 2 2 hs h) (hss : separator ss)
    (minutes : IsNumber 2 2 ms m) (hm : m < 60) :
    IsOffset separator ('+' :: (hs ++ (ss ++ ms))) (h * 60 + m : Nat)
  | behind {c : Char} {hs ss ms : List Char} {h m : Nat} (hc : c = '-' ∨ c = '\u2212')
    (hours : IsNumber 2 2 hs h) (hss : separator ss) (minutes : IsNumber 2 2 ms m) (hm : m < 60) :
    IsOffset separator (c :: (hs ++ (ss ++ ms))) (-(h * 60 + m : Nat))

/-- A year of the lenient grammar: up to four digits, or a sign and any number of digits. -/
inductive IsLenientYear : List Char → Int → Prop
  | unsigned {ds : List Char} {n : Nat} (h : IsNumber 1 4 ds n) : IsLenientYear ds n
  | plus {ds : List Char} {n : Nat} (h : IsNumber 1 ds.length ds n) : IsLenientYear ('+' :: ds) n
  | minus {ds : List Char} {n : Nat} (h : IsNumber 1 ds.length ds n) : IsLenientYear ('-' :: ds) (-n)

/-- How the parts of a timestamp are written. -/
structure Grammar where
  /-- what may stand around the text, and in front of the offset -/
  margin : List Char → Prop
  year : List Char → Int → Prop
  /-- a month, day, hour, minute or second -/
  part : List Char → Nat → Prop
  separator : Char → List Char → Prop
  /-- what stands between the date and the time of day -/
  dateEnd : Char → Prop
  fraction : List Char → Nat → Prop
  offset : List Char → Int → Prop

namespace Grammar

/-- The texts of a grammar, with the parts that they name. -/
inductive Spells (g : Grammar) : List Char → Parts → Prop
  | intro {p : Parts} {front year dash month dash' day : List Char} {t : Char}
    {hour colon minute colon' second fraction gap offset back : List Char}
    (hfront : g.margin front) (hyear : g.year year p.year) (hdash : g.separator '-' dash)
    (hmonth : g.part month p.month) (hdash' : g.separator '-' dash') (hday : g.part day p.day)
    (ht : g.dateEnd t) (hhour : g.part hour p.hour) (hcolon : g.separator ':' colon)
    (hminute : g.part minute p.minute) (hcolon' : g.separator ':' colon')
    (hsecond : g.part second p.second) (hfraction : g.fraction fraction p.nanosecond)
    (hgap : g.margin gap) (hoffset : g.offset offset p.offset) (hback : g.margin back) :
    Spells g (front ++ (year ++ (dash ++ (month ++ (dash' ++ (day ++ t :: (hour ++ (colon ++ (minute ++
      (colon' ++ (second ++ (fraction ++ (gap ++ (offset ++ back)))))))))))))) p

/-- The grammar of documents: parts of one or two digits, blanks in front of parts and separators, a run of
colons and blanks within an offset, and `UTC` in any case for universal time. -/
def lenient : Grammar where
  margin := Blanks
  year := IsLenientYear
  part cs n := ∃ bs ds, cs = bs ++ ds ∧ Blanks bs ∧ IsNumber 1 2 ds n
  separator c cs := ∃ bs, cs = bs ++ [c] ∧ Blanks bs
  dateEnd c := c = 'T' ∨ c = 't' ∨ c = ' '
  fraction := IsFraction
  offset cs o := (cs.map Char.toLower = ['u', 't', 'c'] ∧ o = 0) ∨
    IsOffset (fun ss => ∀ c ∈ ss, c = ':' ∨ Text.isBlank c = true) cs o

/-- The grammar of conditions: every part has its full width and there are no blanks. -/
def strict : Grammar where
  margin cs := cs = []
  year cs y := ∃ n, IsNumber 4 4 cs n ∧ y = (n : Int)
  part := IsNumber 2 2
  separator c cs := cs = [c]
  dateEnd c := c = 'T' ∨ c = 't' ∨ c = ' '
  fraction := IsFraction
  offset := IsOffset fun ss => ss = [':']

end Grammar

/-! ## Numbers, blanks and fractions -/

section Pieces

variable {c : Char} {cs w rest : List Char} {least most n : Nat}

/-- A text that is empty or begins with a character of a kind. -/
def Begins (p : Char → Prop) (cs : List Char) : Prop := ∀ c ∈ cs.head?, p c

/-- A text that is empty or begins with a `p` does so with every weaker `q`. -/
theorem Begins.mono {p q : Char → Prop} (h : Begins p cs) (hpq : ∀ c, p c → q c) : Begins q cs :=
  fun c hc => hpq c (h c hc)

/-- A word of `p` characters before a text that begins with `p` leaves it beginning with `p`. -/
theorem Begins.append {p : Char → Prop} (hw : ∀ c ∈ w, p c) (h : Begins p rest) : Begins p (w ++ rest) := by
  cases w with
  | nil => exact h
  | cons d w =>
    intro c hc
    obtain rfl := Option.some_inj.1 hc
    exact hw d List.mem_cons_self

theorem begins_nil {p : Char → Prop} : Begins p [] := by
  intro c hc
  cases hc

theorem begins_cons {p : Char → Prop} (h : p c) : Begins p (c :: cs) := by
  intro d hd
  obtain rfl := Option.some_inj.1 hd
  exact h

/-- No number goes on with the character. -/
abbrev EndsNumber (c : Char) : Prop := c.isDigit = false

/-- Neither a number nor a fraction goes on with the character. -/
abbrev EndsSecond (c : Char) : Prop := c.isDigit = false ∧ c ≠ '.'

/-- No run of blanks goes on with the character. -/
abbrev EndsBlanks (c : Char) : Prop := Text.isBlank c = false

/-- The digits are the characters from 48 to 57. -/
theorem isDigit_iff : c.isDigit = true ↔ 48 ≤ c.toNat ∧ c.toNat ≤ 57 := by
  rw [Char.isDigit, Bool.and_eq_true, decide_eq_true_eq, decide_eq_true_eq]
  exact Iff.rfl

/-- A digit ends a stretch of blanks. -/
theorem endsBlanks_of_isDigit (h : c.isDigit = true) : EndsBlanks c := by
  have hrange := isDigit_iff.1 h
  rw [EndsBlanks, Bool.eq_false_iff]
  intro hblank
  obtain ⟨r, hr, hc⟩ := List.any_eq_true.1 hblank
  rw [Bool.and_eq_true, decide_eq_true_eq, decide_eq_true_eq] at hc
  have apart : ∀ r ∈ Text.blankRanges, r.2 < 48 ∨ 57 < r.1 := by decide
  rcases apart r hr with h | h <;> omega

/-- A blank ends the seconds. -/
theorem endsSecond_of_isBlank (h : Text.isBlank c = true) : EndsSecond c := by
  refine ⟨?_, ?_⟩
  · rw [Bool.eq_false_iff]
    intro hdigit
    have hends : Text.isBlank c = false := endsBlanks_of_isDigit hdigit
    rw [h] at hends
    cases hends
  · rintro rfl
    exact absurd h (by decide)

/-- Dropping stops where the text goes on with nothing to drop. -/
theorem dropWhile_append {p : Char → Bool} (hw : ∀ c ∈ w, p c = true)
    (hrest : Begins (fun c => p c = false) rest) : (w ++ rest).dropWhile p = rest := by
  rw [List.dropWhile_append_of_pos hw]
  cases rest with
  | nil => rfl
  | cons c rest => rw [List.dropWhile_cons_of_neg (by simpa using hrest c rfl)]

/-- Of digits that go on with no other, as many are split off as may be. -/
theorem takeWhile_take_digits (hw : ∀ c ∈ w, c.isDigit = true)
    (hrest : most ≤ w.length ∨ Begins EndsNumber rest) :
    ((w ++ rest).take most).takeWhile Char.isDigit = w.take most := by
  rw [← List.take_takeWhile, List.takeWhile_append_of_pos hw]
  rcases hrest with hlong | hends
  · rw [List.take_append_of_le_length hlong]
  · cases rest with
    | nil => simp
    | cons c rest =>
      have hc : c.isDigit = false := hends c rfl
      rw [List.takeWhile_cons_of_neg (by simp [hc]), List.append_nil]

/-- Digits are read as the longest stretch of them, up to `most`, if that has at least `least`. -/
theorem digits?_eq_some_iff {ds : List Char} : digits? least most cs = some (ds, rest) ↔
    ds = (cs.take most).takeWhile Char.isDigit ∧ least ≤ ds.length ∧ cs = ds ++ rest := by
  have hprefix : (cs.take most).takeWhile Char.isDigit <+: cs :=
    (List.takeWhile_prefix _).trans (List.take_prefix _ _)
  obtain ⟨tail, htail⟩ := hprefix
  have hdrop : cs.drop ((cs.take most).takeWhile Char.isDigit).length = tail := by
    rw [← @List.drop_left _ ((cs.take most).takeWhile Char.isDigit) tail, htail]
  rw [digits?]
  simp only [hdrop]
  split
  · rename_i hshort
    simp only [reduceCtorEq, false_iff]
    rintro ⟨rfl, hle, -⟩
    omega
  · rename_i hlong
    constructor
    · intro h
      obtain ⟨rfl, rfl⟩ := Prod.mk.inj (Option.some_inj.1 h)
      exact ⟨rfl, Nat.not_lt.1 hlong, htail.symm⟩
    · rintro ⟨rfl, -, hcs⟩
      rw [List.append_cancel_left (htail.trans hcs)]

/-- A number that is as long as it may be, or is followed by no digit, is read. -/
theorem number?_append (h : IsNumber least most w n) (hrest : w.length = most ∨ Begins EndsNumber rest) :
    number? least most (w ++ rest) = some (n, rest) := by
  have hdigits : digits? least most (w ++ rest) = some (w, rest) := by
    rw [digits?_eq_some_iff, takeWhile_take_digits h.digits (hrest.imp_left fun h => h.ge)]
    exact ⟨(List.take_of_length_le h.atMost).symm, h.atLeast, rfl⟩
  rw [number?, hdigits, Option.map_some, h.value]

/-- What is read as a number stands at the front of the text as one. -/
theorem exists_of_number? (h : number? least most cs = some (n, rest)) :
    ∃ w, IsNumber least most w n ∧ cs = w ++ rest := by
  obtain ⟨⟨ds, rest'⟩, hdigits, heq⟩ := Option.map_eq_some_iff.1 h
  obtain ⟨hvalue, rfl⟩ := Prod.mk.inj heq
  obtain ⟨hds, hleast, hcs⟩ := digits?_eq_some_iff.1 hdigits
  refine ⟨ds, ⟨fun c hc => List.mem_takeWhile_imp (hds ▸ hc), hleast, ?_, hvalue⟩, hcs⟩
  rw [hds]
  exact (List.takeWhile_prefix _).length_le.trans (List.length_take_le _ _)

/-- Blanks before something else are passed over. -/
theorem trimStart_append (hw : Blanks w) (hrest : Begins EndsBlanks rest) :
    Text.trimStart (w ++ rest) = rest :=
  dropWhile_append hw hrest

/-- What is passed over at the front consists of blanks. -/
theorem exists_of_trimStart (cs : List Char) : ∃ w, Blanks w ∧ cs = w ++ Text.trimStart cs :=
  ⟨cs.takeWhile Text.isBlank, fun _ hc => List.mem_takeWhile_imp hc,
    List.takeWhile_append_dropWhile.symm⟩

/-- A fixed character is read just if the text starts with it. -/
theorem char?_eq_some_iff : char? c cs = some rest ↔ cs = c :: rest := by
  cases cs with
  | nil => simp [char?]
  | cons d cs =>
    by_cases h : c = d
    · simp [char?, h]
    · simp [char?, h, Ne.symm h]

/-- A date ends with the letter T, of either case, or a space. -/
theorem dateEnd?_eq_some_iff :
    dateEnd? cs = some rest ↔ ∃ t, (t = 'T' ∨ t = 't' ∨ t = ' ') ∧ cs = t :: rest := by
  cases cs with
  | nil => simp [dateEnd?]
  | cons d cs =>
    have hcond : (d = 'T' || d = 't' || d = ' ') = true ↔ d = 'T' ∨ d = 't' ∨ d = ' ' := by
      simp [or_assoc]
    rw [dateEnd?]
    split
    · rename_i h
      rw [Option.some_inj]
      constructor
      · rintro rfl
        exact ⟨d, hcond.1 h, rfl⟩
      · rintro ⟨t, -, heq⟩
        exact (List.cons.inj heq).2
    · rename_i h
      simp only [reduceCtorEq, false_iff]
      rintro ⟨t, ht, heq⟩
      obtain ⟨rfl, -⟩ := List.cons.inj heq
      exact h (hcond.2 ht)

/-- A fraction of a second before what ends the seconds is read. -/
theorem fraction?_append (h : IsFraction w n) (hrest : Begins EndsSecond rest) :
    fraction? (w ++ rest) = some (n, rest) := by
  cases h with
  | none =>
    rw [List.nil_append, fraction?]
    rintro cs rfl
    exact (hrest '.' rfl).2 rfl
  | @digits ds hds hne =>
    have hends : Begins EndsNumber rest := hrest.mono fun _ h => h.1
    have hpos : 0 < ds.length := List.length_pos_iff.2 hne
    have hdigits : digits? 1 9 (ds ++ rest) = some (ds.take 9, ds.drop 9 ++ rest) := by
      rw [digits?_eq_some_iff, takeWhile_take_digits hds (.inr hends), ← List.append_assoc,
        List.take_append_drop]
      exact ⟨rfl, by rw [List.length_take]; omega, rfl⟩
    have hafter : (ds.drop 9 ++ rest).dropWhile Char.isDigit = rest :=
      dropWhile_append (fun c hc => hds c (List.mem_of_mem_drop hc)) hends
    rw [List.cons_append, fraction?, hdigits]
    simp only [Option.bind_eq_bind, Option.bind_some, hafter, Option.pure_def]

/-- What is read as a fraction stands at the front of the text as one. -/
theorem exists_of_fraction? (h : fraction? cs = some (n, rest)) : ∃ w, IsFraction w n ∧ cs = w ++ rest := by
  unfold fraction? at h
  split at h
  · rename_i cs
    obtain ⟨⟨ds, rest'⟩, hdigits, heq⟩ := Option.bind_eq_some_iff.1 h
    obtain ⟨rfl, rfl⟩ := Prod.mk.inj (Option.some_inj.1 heq)
    obtain ⟨hds, hleast, rfl⟩ := digits?_eq_some_iff.1 hdigits
    -- the digits of the fraction are those that count and those behind them
    have hall : ∀ c ∈ ds, c.isDigit = true := fun c hc => List.mem_takeWhile_imp (hds ▸ hc)
    have hrun : (ds ++ rest').takeWhile Char.isDigit = ds ++ rest'.takeWhile Char.isDigit :=
      List.takeWhile_append_of_pos hall
    have hcount : (ds ++ rest'.takeWhile Char.isDigit).take 9 = ds := by
      rw [← hrun, List.take_takeWhile, ← hds]
    have hne : ds ++ rest'.takeWhile Char.isDigit ≠ [] := fun h => by
      rw [(List.append_eq_nil_iff.1 h).1] at hleast
      exact absurd hleast (by decide)
    have hfraction := IsFraction.digits (fun c hc => List.mem_takeWhile_imp (hrun ▸ hc)) hne
    rw [hcount] at hfraction
    refine ⟨_, hfraction, ?_⟩
    rw [List.cons_append, List.append_assoc, List.takeWhile_append_dropWhile]
  · obtain ⟨rfl, rfl⟩ := Prod.mk.inj (Option.some_inj.1 h)
    exact ⟨[], .none, rfl⟩

end Pieces

/-! ## Years and offsets -/

section Ends

variable {c : Char} {cs w rest : List Char} {y o : Int} {n : Nat}
  {separator : List Char → Prop} {skip : List Char → Option (List Char)}

/-- A number of at least one digit begins with a digit. -/
theorem IsNumber.begins {least most : Nat} {p : Char → Prop} (h : IsNumber (least + 1) most w n)
    (hp : ∀ c, c.isDigit = true → p c) : Begins p (w ++ rest) := by
  cases w with
  | nil => exact absurd h.atLeast (Nat.not_succ_le_zero _)
  | cons c w => exact begins_cons (hp c (h.digits c List.mem_cons_self))

/-- A number stays one where fewer or more digits are allowed. -/
theorem IsNumber.widen {least most least' most' : Nat} (h : IsNumber least most w n)
    (hleast : least' ≤ least) (hmost : most ≤ most') : IsNumber least' most' w n :=
  ⟨h.digits, hleast.trans h.atLeast, h.atMost.trans hmost, h.value⟩

/-- A year of the lenient grammar before a non-digit is read. -/
theorem lenientYear?_append (h : IsLenientYear w y) (hrest : Begins EndsNumber rest) :
    lenientYear? (w ++ rest) = some (y, rest) := by
  cases h with
  | unsigned h =>
    have hsign : Begins (fun c => c ≠ '-' ∧ c ≠ '+') (w ++ rest) := by
      refine h.begins fun c hc => ⟨?_, ?_⟩
      · rintro rfl
        exact absurd hc (by decide)
      · rintro rfl
        exact absurd hc (by decide)
    have hnumber := number?_append h (.inr hrest)
    unfold lenientYear?
    split
    · rename_i heq
      rw [heq] at hsign
      exact absurd rfl (hsign '-' rfl).1
    · rename_i heq
      rw [heq] at hsign
      exact absurd rfl (hsign '+' rfl).2
    · rw [hnumber, Option.map_some]
  | plus h =>
    rw [List.cons_append, lenientYear?, number?_append (h.widen le_rfl (by simp)) (.inr hrest), Option.map_some]
  | minus h =>
    rw [List.cons_append, lenientYear?, number?_append (h.widen le_rfl (by simp)) (.inr hrest), Option.map_some]

/-- What is read as a lenient year stands at the front of the text as one. -/
theorem exists_of_lenientYear? (h : lenientYear? cs = some (y, rest)) :
    ∃ w, IsLenientYear w y ∧ cs = w ++ rest := by
  have hsigned {ds : List Char} {k : Nat} (hds : number? 1 ds.length ds = some (k, rest)) :
      ∃ w, IsNumber 1 w.length w k ∧ ds = w ++ rest := by
    obtain ⟨w, hw, rfl⟩ := exists_of_number? hds
    exact ⟨w, ⟨hw.digits, hw.atLeast, le_rfl, hw.value⟩, rfl⟩
  unfold lenientYear? at h
  split at h
  all_goals
    obtain ⟨⟨k, rest'⟩, hnumber, heq⟩ := Option.map_eq_some_iff.1 h
    obtain ⟨rfl, rfl⟩ := Prod.mk.inj heq
  · obtain ⟨w, hw, rfl⟩ := hsigned hnumber
    exact ⟨'-' :: w, .minus hw, rfl⟩
  · obtain ⟨w, hw, rfl⟩ := hsigned hnumber
    exact ⟨'+' :: w, .plus hw, rfl⟩
  · obtain ⟨w, hw, rfl⟩ := exists_of_number? hnumber
    exact ⟨w, .unsigned hw, rfl⟩

/-- An offset is read, where the separator before its minutes is passed over. -/
theorem offset?_append (hskip : ∀ ss rest, separator ss → Begins (fun c => c.isDigit = true) rest →
      skip (ss ++ rest) = some rest)
    (h : IsOffset separator w o) : offset? skip (w ++ rest) = some (o, rest) := by
  -- what follows the sign, for both signs
  have hsize {hs ss ms : List Char} {h m : Nat} (hours : IsNumber 2 2 hs h) (hss : separator ss)
      (minutes : IsNumber 2 2 ms m) :
      number? 2 2 (hs ++ (ss ++ (ms ++ rest))) = some (h, ss ++ (ms ++ rest)) ∧
        skip (ss ++ (ms ++ rest)) = some (ms ++ rest) ∧ number? 2 2 (ms ++ rest) = some (m, rest) :=
    ⟨number?_append hours (.inl (le_antisymm hours.atMost hours.atLeast)),
      hskip _ _ hss (minutes.begins fun _ h => h),
      number?_append minutes (.inl (le_antisymm minutes.atMost minutes.atLeast))⟩
  cases h with
  | @universal c hc =>
    rw [List.singleton_append, offset?]
    exact if_pos (by simpa using hc)
  | @ahead hs ss ms h m hours hss minutes hm =>
    obtain ⟨hhours, hbetween, hminutes⟩ := hsize hours hss minutes
    rw [List.cons_append, List.append_assoc, List.append_assoc]
    simp [offset?, hhours, hbetween, hminutes, Nat.not_le.2 hm]
  | @behind c hs ss ms h m hc hours hss minutes hm =>
    obtain ⟨hhours, hbetween, hminutes⟩ := hsize hours hss minutes
    rw [List.cons_append, List.append_assoc, List.append_assoc]
    rcases hc with rfl | rfl
    all_goals simp [offset?, hhours, hbetween, hminutes, Nat.not_le.2 hm]

/-- What is read as an offset stands at the front of the text as one. -/
theorem exists_of_offset? (hskip : ∀ cs rest, skip cs = some rest → ∃ ss, separator ss ∧ cs = ss ++ rest)
    (h : offset? skip cs = some (o, rest)) : ∃ w, IsOffset separator w o ∧ cs = w ++ rest := by
  unfold offset? at h
  split at h
  case h_1 => cases h
  case h_2 c cs =>
    split at h
    case isTrue hz =>
      obtain ⟨rfl, rfl⟩ := Prod.mk.inj (Option.some_inj.1 h)
      exact ⟨[c], .universal (by simpa using hz), rfl⟩
    case isFalse =>
      split at h
      case isFalse => cases h
      case isTrue hsign =>
        obtain ⟨⟨hours, cs₁⟩, hhours, hhoursRest⟩ := Option.bind_eq_some_iff.1 h
        obtain ⟨cs₂, hbetween, hbetweenRest⟩ := Option.bind_eq_some_iff.1 hhoursRest
        obtain ⟨⟨minutes, cs₃⟩, hminutes, hend⟩ := Option.bind_eq_some_iff.1 hbetweenRest
        obtain ⟨hs, hhs, rfl⟩ := exists_of_number? hhours
        obtain ⟨ss, hss, rfl⟩ := hskip _ _ hbetween
        obtain ⟨ms, hms, rfl⟩ := exists_of_number? hminutes
        simp only at hend
        split at hend
        case isTrue => cases hend
        case isFalse hm =>
          obtain ⟨rfl, rfl⟩ := Prod.mk.inj (Option.some_inj.1 hend)
          -- the minus sign has two spellings
          by_cases hplus : c = '+'
          · rw [hplus, if_pos rfl]
            exact ⟨_, .ahead hhs hss hms (Nat.not_le.1 hm), by simp⟩
          · have hc : c = '-' ∨ c = '\u2212' := by simpa [hplus] using hsign
            rw [if_neg hplus]
            exact ⟨_, .behind hc hhs hss hms (Nat.not_le.1 hm), by simp⟩

/-- An offset begins with nothing that goes on with what stands in front of it. -/
theorem IsOffset.begins (h : IsOffset separator w o) :
    Begins (fun c => EndsSecond c ∧ EndsBlanks c ∧ c.toLower ≠ 'u') (w ++ rest) := by
  cases h with
  | universal hc => rcases hc with rfl | rfl <;> exact begins_cons (by decide)
  | ahead => exact begins_cons (by decide)
  | behind hc => rcases hc with rfl | rfl <;> exact begins_cons (by decide)

/-- A fraction, and what ends the seconds, ends a number. -/
theorem IsFraction.begins (h : IsFraction w n) (hrest : Begins EndsSecond rest) :
    Begins EndsNumber (w ++ rest) := by
  cases h with
  | none => exact hrest.mono fun _ h => h.1
  | digits => exact begins_cons (by decide)

end Ends

/-! ## Readers -/

/-- How a reader takes each part off a text. -/
structure Reader where
  margin : List Char → List Char
  year : List Char → Option (Int × List Char)
  part : List Char → Option (Nat × List Char)
  separator : Char → List Char → Option (List Char)
  offset : List Char → Option (Int × List Char)

/-- Reads the parts of a timestamp one after the other. -/
def Reader.timestamp? (r : Reader) (cs : List Char) : Option Timestamp := do
  let (year, cs) ← r.year (r.margin cs)
  let cs ← r.separator '-' cs
  let (month, cs) ← r.part cs
  let cs ← r.separator '-' cs
  let (day, cs) ← r.part cs
  let cs ← dateEnd? cs
  let (hour, cs) ← r.part cs
  let cs ← r.separator ':' cs
  let (minute, cs) ← r.part cs
  let cs ← r.separator ':' cs
  let (second, cs) ← r.part cs
  let (nanosecond, cs) ← fraction? cs
  let (offset, cs) ← r.offset (r.margin cs)
  if !(r.margin cs).isEmpty then none
  else ofParts? year month day hour minute second nanosecond offset

/-- A reader takes the parts of a grammar. What it takes off a text is such a part; it takes all of a part
that is followed by nothing that goes on with it; and no part begins with what would go on with the one in
front of it. -/
structure Reader.Reads (r : Reader) (g : Grammar) : Prop where
  dateEnd : ∀ t, g.dateEnd t ↔ t = 'T' ∨ t = 't' ∨ t = ' '
  fraction : g.fraction = IsFraction
  takes_margin : ∀ {cs rest}, r.margin cs = rest → ∃ w, g.margin w ∧ cs = w ++ rest
  takes_year : ∀ {cs y rest}, r.year cs = some (y, rest) → ∃ w, g.year w y ∧ cs = w ++ rest
  takes_part : ∀ {cs n rest}, r.part cs = some (n, rest) → ∃ w, g.part w n ∧ cs = w ++ rest
  takes_separator : ∀ {c cs rest}, r.separator c cs = some rest → ∃ w, g.separator c w ∧ cs = w ++ rest
  takes_offset : ∀ {cs o rest}, r.offset cs = some (o, rest) → ∃ w, g.offset w o ∧ cs = w ++ rest
  margin : ∀ {w rest}, g.margin w → Begins EndsBlanks rest → r.margin (w ++ rest) = rest
  year : ∀ {w y rest}, g.year w y → Begins EndsNumber rest → r.year (w ++ rest) = some (y, rest)
  part : ∀ {w n rest}, g.part w n → Begins EndsNumber rest → r.part (w ++ rest) = some (n, rest)
  separator : ∀ {c w rest}, EndsBlanks c → g.separator c w → r.separator c (w ++ rest) = some rest
  offset : ∀ {w o rest}, g.offset w o → r.offset (w ++ rest) = some (o, rest)
  begins_margin : ∀ {w rest}, g.margin w → Begins EndsSecond rest → Begins EndsSecond (w ++ rest)
  begins_year : ∀ {w y rest}, g.year w y → Begins EndsBlanks (w ++ rest)
  begins_separator : ∀ {c w rest}, EndsNumber c → g.separator c w → Begins EndsNumber (w ++ rest)
  begins_offset : ∀ {w o rest}, g.offset w o → Begins (fun c => EndsSecond c ∧ EndsBlanks c) (w ++ rest)

section Reads

variable {r : Reader} {g : Grammar} {cs : List Char} {p : Parts} {stamp : Timestamp}

/-- The parts that were taken off a text are those of a text of the grammar. -/
theorem Reader.Reads.exists_of_timestamp? (h : r.Reads g) (hread : r.timestamp? cs = some stamp) :
    ∃ p, g.Spells cs p ∧ p.timestamp? = some stamp := by
  -- what each of the readers took, in the order of the text
  obtain ⟨⟨year, cs₁⟩, ryear, hread⟩ := Option.bind_eq_some_iff.1 hread
  obtain ⟨cs₂, rdash, hread⟩ := Option.bind_eq_some_iff.1 hread
  obtain ⟨⟨month, cs₃⟩, rmonth, hread⟩ := Option.bind_eq_some_iff.1 hread
  obtain ⟨cs₄, rdash', hread⟩ := Option.bind_eq_some_iff.1 hread
  obtain ⟨⟨day, cs₅⟩, rday, hread⟩ := Option.bind_eq_some_iff.1 hread
  obtain ⟨cs₆, rend, hread⟩ := Option.bind_eq_some_iff.1 hread
  obtain ⟨⟨hour, cs₇⟩, rhour, hread⟩ := Option.bind_eq_some_iff.1 hread
  obtain ⟨cs₈, rcolon, hread⟩ := Option.bind_eq_some_iff.1 hread
  obtain ⟨⟨minute, cs₉⟩, rminute, hread⟩ := Option.bind_eq_some_iff.1 hread
  obtain ⟨cs₁₀, rcolon', hread⟩ := Option.bind_eq_some_iff.1 hread
  obtain ⟨⟨second, cs₁₁⟩, rsecond, hread⟩ := Option.bind_eq_some_iff.1 hread
  obtain ⟨⟨nanosecond, cs₁₂⟩, rfraction, hread⟩ := Option.bind_eq_some_iff.1 hread
  obtain ⟨⟨offset, cs₁₃⟩, roffset, hread⟩ := Option.bind_eq_some_iff.1 hread
  simp only at hread
  split at hread
  case isTrue => cases hread
  case isFalse hempty =>
    refine ⟨⟨year, month, day, hour, minute, second, nanosecond, offset⟩, ?_, hread⟩
    -- now from the texts that were left back to the words, the margins first
    obtain ⟨front, hfront, hcs⟩ := h.takes_margin (@rfl _ (r.margin cs))
    obtain ⟨gap, hgap, hcs₁₂⟩ := h.takes_margin (@rfl _ (r.margin cs₁₂))
    obtain ⟨back, hback, hcs₁₃⟩ := h.takes_margin (show r.margin cs₁₃ = [] by simpa using hempty)
    obtain ⟨wyear, hyear, hcs₀⟩ := h.takes_year ryear
    obtain ⟨woffset, hoffset, hcs₁₂'⟩ := h.takes_offset roffset
    obtain ⟨dash, hdash, rfl⟩ := h.takes_separator rdash
    obtain ⟨wmonth, hmonth, rfl⟩ := h.takes_part rmonth
    obtain ⟨dash', hdash', rfl⟩ := h.takes_separator rdash'
    obtain ⟨wday, hday, rfl⟩ := h.takes_part rday
    obtain ⟨t, ht, rfl⟩ := dateEnd?_eq_some_iff.1 rend
    obtain ⟨whour, hhour, rfl⟩ := h.takes_part rhour
    obtain ⟨colon, hcolon, rfl⟩ := h.takes_separator rcolon
    obtain ⟨wminute, hminute, rfl⟩ := h.takes_part rminute
    obtain ⟨colon', hcolon', rfl⟩ := h.takes_separator rcolon'
    obtain ⟨wsecond, hsecond, rfl⟩ := h.takes_part rsecond
    obtain ⟨wfraction, hfraction, rfl⟩ := exists_of_fraction? rfraction
    rw [hcs, hcs₀, hcs₁₂, hcs₁₂', hcs₁₃, List.append_nil]
    exact .intro hfront hyear hdash hmonth hdash' hday ((h.dateEnd t).2 ht) hhour hcolon hminute hcolon'
      hsecond (h.fraction ▸ hfraction) hgap hoffset hback

/-- The parts of a text of the grammar are taken off it. -/
theorem Reader.Reads.timestamp?_of_spells (h : r.Reads g) (hspells : g.Spells cs p)
    (hstamp : p.timestamp? = some stamp) : r.timestamp? cs = some stamp := by
  cases hspells with
  | @intro _ front wyear dash wmonth dash' wday t whour colon wminute colon' wsecond wfraction gap woffset
      back hfront hyear hdash hmonth hdash' hday ht hhour hcolon hminute hcolon' hsecond hfraction hgap
      hoffset hback =>
    rw [h.fraction] at hfraction
    have hdigit : EndsNumber '-' ∧ EndsBlanks '-' ∧ EndsNumber ':' ∧ EndsBlanks ':' := by decide
    obtain ⟨hdashDigit, hdashBlank, hcolonDigit, hcolonBlank⟩ := hdigit
    have htDigit : EndsNumber t := by rcases (h.dateEnd t).1 ht with rfl | rfl | rfl <;> decide
    -- what the rest of the text begins with, from the back
    have hend : r.margin back = [] := by
      simpa using h.margin hback begins_nil
    have boffset : Begins _ (woffset ++ back) := h.begins_offset hoffset
    have bgap : Begins EndsSecond (gap ++ (woffset ++ back)) :=
      h.begins_margin hgap (boffset.mono fun _ hc => hc.1)
    have bfraction : Begins EndsNumber (wfraction ++ (gap ++ (woffset ++ back))) := hfraction.begins bgap
    have rtail := h.margin hgap (boffset.mono fun _ hc => hc.2)
    rw [Reader.timestamp?, h.margin hfront (h.begins_year hyear)]
    refine Option.bind_eq_some_iff.2 ⟨_, h.year hyear (h.begins_separator hdashDigit hdash), ?_⟩
    refine Option.bind_eq_some_iff.2 ⟨_, h.separator hdashBlank hdash, ?_⟩
    refine Option.bind_eq_some_iff.2 ⟨_, h.part hmonth (h.begins_separator hdashDigit hdash'), ?_⟩
    refine Option.bind_eq_some_iff.2 ⟨_, h.separator hdashBlank hdash', ?_⟩
    refine Option.bind_eq_some_iff.2 ⟨_, h.part hday (begins_cons htDigit), ?_⟩
    refine Option.bind_eq_some_iff.2 ⟨_, dateEnd?_eq_some_iff.2 ⟨t, (h.dateEnd t).1 ht, rfl⟩, ?_⟩
    refine Option.bind_eq_some_iff.2 ⟨_, h.part hhour (h.begins_separator hcolonDigit hcolon), ?_⟩
    refine Option.bind_eq_some_iff.2 ⟨_, h.separator hcolonBlank hcolon, ?_⟩
    refine Option.bind_eq_some_iff.2 ⟨_, h.part hminute (h.begins_separator hcolonDigit hcolon'), ?_⟩
    refine Option.bind_eq_some_iff.2 ⟨_, h.separator hcolonBlank hcolon', ?_⟩
    refine Option.bind_eq_some_iff.2 ⟨_, h.part hsecond bfraction, ?_⟩
    refine Option.bind_eq_some_iff.2 ⟨_, fraction?_append hfraction bgap, ?_⟩
    refine Option.bind_eq_some_iff.2 ⟨_, (congrArg r.offset rtail).trans (h.offset hoffset), ?_⟩
    simp only [hend]
    exact hstamp

/-- A reader that takes the parts of a grammar accepts exactly the texts of the grammar. -/
theorem Reader.Reads.timestamp?_eq_some_iff (h : r.Reads g) :
    r.timestamp? cs = some stamp ↔ ∃ p, g.Spells cs p ∧ p.timestamp? = some stamp :=
  ⟨h.exists_of_timestamp?, fun ⟨_, hspells, hstamp⟩ => h.timestamp?_of_spells hspells hstamp⟩

end Reads

/-! ## The two readers -/

/-- The reader of documents. -/
def lenientReader : Reader where
  margin := Text.trimStart
  year := lenientYear?
  part := lenientPart?
  separator := lenientSeparator?
  offset := lenientOffset?

/-- The reader of conditions. -/
def strictReader : Reader where
  margin cs := cs
  year cs := (number? 4 4 cs).map fun r => ((r.1 : Int), r.2)
  part := number? 2 2
  separator := char?
  offset := offset? (char? ':')

/-- Between the hours and the minutes of an offset a document may have colons and blanks. -/
def isSkipped (c : Char) : Bool := c == ':' || Text.isBlank c

/-- Between the hours and minutes of a lenient offset, colons and blanks are passed over. -/
theorem isSkipped_iff {c : Char} : isSkipped c = true ↔ c = ':' ∨ Text.isBlank c = true := by
  rw [isSkipped, Bool.or_eq_true, beq_iff_eq]

/-- What is passed over there consists of colons and blanks. -/
theorem exists_of_skip {cs rest : List Char} (h : cs.dropWhile isSkipped = rest) :
    ∃ ss, (∀ c ∈ ss, c = ':' ∨ Text.isBlank c = true) ∧ cs = ss ++ rest := by
  refine ⟨cs.takeWhile isSkipped, fun c hc => isSkipped_iff.1 (List.mem_takeWhile_imp hc), ?_⟩
  rw [← h, List.takeWhile_append_dropWhile]

/-- Colons and blanks before a digit are passed over. -/
theorem skip_append {ss rest : List Char} (hss : ∀ c ∈ ss, c = ':' ∨ Text.isBlank c = true)
    (hrest : Begins (fun c => c.isDigit = true) rest) : (ss ++ rest).dropWhile isSkipped = rest := by
  refine dropWhile_append (fun c hc => isSkipped_iff.2 (hss c hc)) (hrest.mono fun c hc => ?_)
  rw [Bool.eq_false_iff, ne_eq, isSkipped_iff]
  rintro (rfl | hblank)
  · exact absurd hc (by decide)
  · rw [(endsSecond_of_isBlank hblank).1] at hc
    cases hc

/-- Only two letters have the lower case u. -/
theorem eq_of_toLower_eq_u {c : Char} (h : c.toLower = 'u') : c = 'u' ∨ c = 'U' := by
  by_cases hupper : c.val ≥ 'A'.val ∧ c.val ≤ 'Z'.val
  · right
    have hlower : c.toLower.val = c.val + ('a'.val - 'A'.val) := congrArg Char.val (dif_pos hupper)
    have hval : c.val + ('a'.val - 'A'.val) = 'U'.val + ('a'.val - 'A'.val) := by
      rw [← hlower, h]
      rfl
    exact Char.ext ((UInt32.add_left_inj _).1 hval)
  · left
    exact (dif_neg hupper).symm.trans h

/-- The lenient reader reads exactly the lenient grammar. -/
theorem lenientReader_reads : lenientReader.Reads Grammar.lenient where
  dateEnd _ := Iff.rfl
  fraction := rfl
  takes_margin := by
    rintro cs rest rfl
    exact exists_of_trimStart cs
  takes_year := exists_of_lenientYear?
  takes_part := by
    intro cs n rest h
    obtain ⟨bs, hbs, hcs⟩ := exists_of_trimStart cs
    obtain ⟨ds, hds, hrest⟩ := exists_of_number? h
    exact ⟨bs ++ ds, ⟨bs, ds, rfl, hbs, hds⟩, by rw [hcs, hrest, List.append_assoc]⟩
  takes_separator := by
    intro c cs rest h
    obtain ⟨bs, hbs, hcs⟩ := exists_of_trimStart cs
    have hrest := char?_eq_some_iff.1 h
    exact ⟨bs ++ [c], ⟨bs, rfl, hbs⟩, by rw [hcs, hrest, List.append_assoc, List.singleton_append]⟩
  takes_offset := by
    intro cs o rest h
    change lenientOffset? cs = some (o, rest) at h
    unfold lenientOffset? at h
    split at h
    case isTrue hutc =>
      obtain ⟨rfl, rfl⟩ := Prod.mk.inj (Option.some_inj.1 h)
      exact ⟨cs.take 3, .inl ⟨by simpa using hutc, rfl⟩, (List.take_append_drop 3 cs).symm⟩
    case isFalse =>
      obtain ⟨w, hw, hcs⟩ := exists_of_offset? (fun cs rest h => exists_of_skip (Option.some_inj.1 h)) h
      exact ⟨w, .inr hw, hcs⟩
  margin := trimStart_append
  year := lenientYear?_append
  part := by
    rintro w n rest ⟨bs, ds, rfl, hbs, hds⟩ hrest
    change number? 1 2 (Text.trimStart (bs ++ ds ++ rest)) = _
    rw [List.append_assoc, trimStart_append hbs (hds.begins fun _ => endsBlanks_of_isDigit)]
    exact number?_append hds (.inr hrest)
  separator := by
    rintro c w rest hc ⟨bs, rfl, hbs⟩
    change char? c (Text.trimStart (bs ++ [c] ++ rest)) = _
    rw [List.append_assoc, List.singleton_append, trimStart_append hbs (begins_cons hc)]
    exact char?_eq_some_iff.2 rfl
  offset := by
    intro w o rest h
    change lenientOffset? (w ++ rest) = _
    rcases h with ⟨hutc, rfl⟩ | h
    · have hlength : w.length = 3 := by simpa using congrArg List.length hutc
      rw [lenientOffset?, ← hlength, List.take_left, List.drop_left, hutc]
      rfl
    · -- an offset in numbers does not begin like the letters
      have hu : ¬ ((w ++ rest).take 3).map Char.toLower = ['u', 't', 'c'] := by
        intro hutc
        obtain ⟨c, cs, hcs, hc, -⟩ := List.map_eq_cons_iff.1 hutc
        have hhead : (w ++ rest).head? = some c := by
          simpa [List.head?_take] using congrArg List.head? hcs
        exact (h.begins c hhead).2.2 hc
      rw [lenientOffset?, if_neg (by simpa using hu)]
      exact offset?_append (fun ss rest hss hrest => congrArg some (skip_append hss hrest)) h
  begins_margin hw hrest := hrest.append fun c hc => endsSecond_of_isBlank (hw c hc)
  begins_year := by
    intro w y rest h
    cases h with
    | unsigned h => exact h.begins fun _ => endsBlanks_of_isDigit
    | plus => exact begins_cons (by decide)
    | minus => exact begins_cons (by decide)
  begins_separator := by
    rintro c w rest hc ⟨bs, rfl, hbs⟩
    rw [List.append_assoc]
    exact (begins_cons hc).append fun c hc => (endsSecond_of_isBlank (hbs c hc)).1
  begins_offset := by
    intro w o rest h
    rcases h with ⟨hutc, -⟩ | h
    · obtain ⟨c, cs, rfl, hc, -⟩ := List.map_eq_cons_iff.1 hutc
      refine begins_cons ?_
      rcases eq_of_toLower_eq_u hc with rfl | rfl <;> decide
    · exact h.begins.mono fun _ hc => ⟨hc.1, hc.2.1⟩

/-- The strict reader reads exactly the strict grammar. -/
theorem strictReader_reads : strictReader.Reads Grammar.strict where
  dateEnd _ := Iff.rfl
  fraction := rfl
  takes_margin h := ⟨[], rfl, h⟩
  takes_year := by
    intro cs y rest h
    obtain ⟨⟨n, rest'⟩, hnumber, heq⟩ := Option.map_eq_some_iff.1 h
    obtain ⟨rfl, rfl⟩ := Prod.mk.inj heq
    obtain ⟨w, hw, hcs⟩ := exists_of_number? hnumber
    exact ⟨w, ⟨n, hw, rfl⟩, hcs⟩
  takes_part := exists_of_number?
  takes_separator h := ⟨_, rfl, char?_eq_some_iff.1 h⟩
  takes_offset := exists_of_offset? fun _ _ h => ⟨_, rfl, char?_eq_some_iff.1 h⟩
  margin := by
    rintro w rest rfl _
    rfl
  year := by
    rintro w y rest ⟨n, hn, rfl⟩ hrest
    change (number? 4 4 (w ++ rest)).map _ = _
    rw [number?_append hn (.inr hrest), Option.map_some]
  part h hrest := number?_append h (.inr hrest)
  separator := by
    rintro c w rest - rfl
    exact char?_eq_some_iff.2 rfl
  offset := offset?_append fun ss rest hss _ => by
    rw [hss]
    exact char?_eq_some_iff.2 rfl
  begins_margin := by
    rintro w rest rfl hrest
    exact hrest
  begins_year := by
    rintro w y rest ⟨n, hn, -⟩
    exact hn.begins fun _ => endsBlanks_of_isDigit
  begins_separator := by
    rintro c w rest hc rfl
    exact begins_cons hc
  begins_offset h := h.begins.mono fun _ hc => ⟨hc.1, hc.2.1⟩

/-- Documents are read by the lenient grammar. -/
theorem ofText?_eq_some_iff {s : String} {t : Timestamp} :
    ofText? s = some t ↔ ∃ p, Grammar.lenient.Spells s.toList p ∧ p.timestamp? = some t :=
  lenientReader_reads.timestamp?_eq_some_iff

/-- Conditions are read by the strict grammar. -/
theorem ofStrictText?_eq_some_iff {s : String} {t : Timestamp} :
    ofStrictText? s = some t ↔ ∃ p, Grammar.strict.Spells s.toList p ∧ p.timestamp? = some t := by
  have hread : ofStrictText? s = strictReader.timestamp? s.toList := by
    refine Eq.trans ?_ Option.bind_map.symm
    rfl
  rw [hread]
  exact strictReader_reads.timestamp?_eq_some_iff

end ProvenanceTrail.Timestamp
