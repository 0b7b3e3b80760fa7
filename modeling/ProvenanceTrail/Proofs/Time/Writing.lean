import Mathlib.Algebra.Group.Nat.Defs
import ProvenanceTrail.Proofs.Json.Lexemes
import ProvenanceTrail.Proofs.Time.Grammar

/-!
# Timestamps are read as they were written

The written form is a third grammar (`Timestamp.Grammar.written`): every part has its full width, a year
outside four digits has a sign, the offset zero is `Z`, and a fraction has as few of 0, 3, 6 or 9 digits as
give it exactly. A timestamp has one text in this grammar, the one that is written
(`spells_written_iff`). The texts of this grammar are texts of the lenient one, so a timestamp that was read
from a document is read again from what is written of it (`ofText?_toText`).
-/

namespace ProvenanceTrail.Timestamp

/-! ## The written form -/

/-- A year: four digits, or a sign and at least four digits where four digits and no sign will not do. -/
inductive IsWrittenYear : List Char → Int → Prop
  | plain {ds : List Char} {n : Nat} (h : IsNumber 4 4 ds n) : IsWrittenYear ds n
  | late {ds : List Char} {n : Nat} (h : IsNumber 4 ds.length ds n) (hn : 9999 < n)
    (hzero : ds.head? ≠ some '0') : IsWrittenYear ('+' :: ds) n
  | early {ds : List Char} {n : Nat} (h : IsNumber 4 ds.length ds n) (hn : 0 < n)
    (hzero : 4 < ds.length → ds.head? ≠ some '0') : IsWrittenYear ('-' :: ds) (-n)

/-- A fraction of a second with so many digits that is exact to the nanosecond. -/
def IsExactFraction (k : Nat) (cs : List Char) (nanosecond : Nat) : Prop :=
  ∃ ds n, cs = (if k = 0 then [] else '.' :: ds) ∧ IsNumber k k ds n ∧ n * Nat.pow 10 (9 - k) = nanosecond

/-- The numbers of digits that a written fraction can have. -/
def fractionLengths : List Nat := [0, 3, 6, 9]

/-- The shortest exact fraction. -/
def IsShortestFraction (cs : List Char) (nanosecond : Nat) : Prop :=
  ∃ k ∈ fractionLengths, IsExactFraction k cs nanosecond ∧
    ∀ j ∈ fractionLengths, j < k → ∀ cs', ¬ IsExactFraction j cs' nanosecond

/-- An offset: `Z` for none, otherwise a sign, hours and minutes. -/
inductive IsWrittenOffset : List Char → Int → Prop
  | none : IsWrittenOffset ['Z'] 0
  | ahead {hs ms : List Char} {h m : Nat} (hours : IsNumber 2 2 hs h) (minutes : IsNumber 2 2 ms m)
    (hm : m < 60) (hpos : 0 < h * 60 + m) : IsWrittenOffset ('+' :: (hs ++ ':' :: ms)) (h * 60 + m : Nat)
  | behind {hs ms : List Char} {h m : Nat} (hours : IsNumber 2 2 hs h) (minutes : IsNumber 2 2 ms m)
    (hm : m < 60) (hpos : 0 < h * 60 + m) :
    IsWrittenOffset ('-' :: (hs ++ ':' :: ms)) (-(h * 60 + m : Nat))

/-- The grammar in which timestamps are written. -/
def Grammar.written : Grammar where
  margin cs := cs = []
  year := IsWrittenYear
  part := IsNumber 2 2
  separator c cs := cs = [c]
  dateEnd c := c = 'T'
  fraction := IsShortestFraction
  offset := IsWrittenOffset

/-! ## Numbers of a fixed width -/

section Numbers

variable {cs cs' : List Char} {k n : Nat}

/-- The first digit counts the power of ten that the others leave it. -/
theorem ofDigits_cons (c : Char) (cs : List Char) : Number.ofDigits (c :: cs) =
    10 ^ cs.length * (c.toNat - 48) + Number.ofDigits cs := by
  change Nat.ofDigitChars 10 (c :: cs) 0 = _
  rw [Nat.ofDigitChars_cons, Nat.ofDigitChars_eq_ofDigitChars_zero, Nat.mul_zero, Nat.zero_add]
  rfl

/-- A number of `k` digits is below `10 ^ k`. -/
theorem ofDigits_lt (h : ∀ c ∈ cs, c.isDigit = true) : Number.ofDigits cs < 10 ^ cs.length := by
  induction cs with
  | nil => decide
  | cons c cs ih =>
    obtain ⟨hc, hcs⟩ := List.forall_mem_cons.1 h
    have hrange := isDigit_iff.1 hc
    have hle : 10 ^ cs.length * (c.toNat - 48) ≤ 10 ^ cs.length * 9 :=
      Nat.mul_le_mul_left _ (by omega)
    have hlt := ih hcs
    rw [ofDigits_cons, List.length_cons, Nat.pow_succ]
    omega

/-- Digits are told apart by their number and their value. -/
theorem eq_of_ofDigits (h : ∀ c ∈ cs, c.isDigit = true) (h' : ∀ c ∈ cs', c.isDigit = true)
    (hlength : cs.length = cs'.length) (hvalue : Number.ofDigits cs = Number.ofDigits cs') : cs = cs' := by
  induction cs generalizing cs' with
  | nil => exact (List.length_eq_zero_iff.1 hlength.symm).symm
  | cons c cs ih =>
    obtain _ | ⟨c', cs'⟩ := cs'
    · cases hlength
    obtain ⟨hc, hcs⟩ := List.forall_mem_cons.1 h
    obtain ⟨hc', hcs'⟩ := List.forall_mem_cons.1 h'
    have hrest : cs.length = cs'.length := Nat.succ.inj hlength
    have hlt := ofDigits_lt hcs
    have hlt' := ofDigits_lt hcs'
    rw [ofDigits_cons, ofDigits_cons, ← hrest] at hvalue
    rw [← hrest] at hlt'
    -- the first digit is the quotient, the others are the remainder
    have hhead : c.toNat - 48 = c'.toNat - 48 := by
      have hdiv := congrArg (· / 10 ^ cs.length) hvalue
      simpa [Nat.mul_add_div (Nat.pow_pos (by decide : 0 < 10)), Nat.div_eq_of_lt hlt,
        Nat.div_eq_of_lt hlt'] using hdiv
    rw [hhead] at hvalue
    have hrange := isDigit_iff.1 hc
    have hrange' := isDigit_iff.1 hc'
    have hchar : c = c' := Char.toNat_inj.1 (by omega)
    rw [hchar, ih hcs hcs' hrest (Nat.add_left_cancel hvalue)]

/-- A number has one spelling of each length. -/
theorem IsNumber.eq (h : IsNumber k k cs n) (h' : IsNumber k k cs' n) : cs = cs' :=
  eq_of_ofDigits h.digits h'.digits
    ((le_antisymm h.atMost h.atLeast).trans (le_antisymm h'.atMost h'.atLeast).symm)
    (h.value.trans h'.value.symm)

/-- A number of `k` digits is below `10 ^ k`. -/
theorem IsNumber.lt (h : IsNumber k k cs n) : n < 10 ^ k := by
  have hlt := ofDigits_lt h.digits
  rwa [h.value, le_antisymm h.atMost h.atLeast] at hlt

/-- A padded numeral is a number of its own length. -/
theorem isNumber_padded (k n : Nat) : IsNumber k (padded k n).length (padded k n) n where
  digits c hc := by
    rcases List.mem_append.1 hc with hc | hc
    · rw [(List.mem_replicate.1 hc).2]
      rfl
    · exact Nat.isDigit_of_mem_toDigits (by decide) (by decide) hc
  atLeast := by
    rw [padded, List.length_append, List.length_replicate]
    omega
  atMost := le_rfl
  value := by
    change Nat.ofDigitChars 10 (List.replicate _ '0' ++ Nat.toDigits 10 n) 0 = n
    rw [Nat.ofDigitChars_append, Nat.ofDigitChars_replicate_zero, Nat.mul_zero,
      Nat.ofDigitChars_ten_toDigits]

/-- A number that fits a width is written in this width. -/
theorem isNumber_padded_of_lt (hk : 0 < k) (hn : n < 10 ^ k) : IsNumber k k (padded k n) n := by
  have hlength : (Nat.toDigits 10 n).length ≤ k := (Nat.length_toDigits_le_iff (by decide) hk).2 hn
  have hpadded : (padded k n).length = k := by
    rw [padded, List.length_append, List.length_replicate]
    omega
  have h := isNumber_padded k n
  rwa [hpadded] at h

/-- A number that does not fit a width is written without a zero in front. -/
theorem padded_of_le (hk : 0 < k) (hn : 10 ^ k ≤ n) : padded k n = Nat.toDigits 10 n := by
  have hlength : k < (Nat.toDigits 10 n).length := by
    by_contra h
    exact absurd ((Nat.length_toDigits_le_iff (by decide) hk).1 (Nat.not_lt.1 h)) (Nat.not_lt.2 hn)
  rw [padded, Nat.sub_eq_zero_of_le hlength.le, List.replicate_zero, List.nil_append]

/-- A number without a zero in front has the digits of its value. -/
theorem eq_toDigits (h : ∀ c ∈ cs, c.isDigit = true) (hne : cs ≠ []) (hzero : cs.head? ≠ some '0') :
    cs = Nat.toDigits 10 (Number.ofDigits cs) := by
  obtain ⟨c, ds, rfl⟩ := List.exists_cons_of_ne_nil hne
  have hc := isDigit_iff.1 (h c List.mem_cons_self)
  have hpos : 1 ≤ c.toNat - 48 := by
    have hne : c.toNat ≠ 48 := fun heq => hzero (congrArg some (Char.toNat_inj.1 heq))
    omega
  have hlt := ofDigits_lt h
  have hle : 10 ^ ds.length ≤ Number.ofDigits (c :: ds) := by
    rw [ofDigits_cons]
    exact (Nat.le_mul_of_pos_right _ hpos).trans (Nat.le_add_right _ _)
  have hmost : (Nat.toDigits 10 (Number.ofDigits (c :: ds))).length ≤ ds.length + 1 :=
    (Nat.length_toDigits_le_iff (by decide) (Nat.succ_pos _)).2 hlt
  have hleast : ds.length < (Nat.toDigits 10 (Number.ofDigits (c :: ds))).length := by
    by_contra hshort
    have hpos : 0 < ds.length := lt_of_lt_of_le Nat.length_toDigits_pos (Nat.not_lt.1 hshort)
    exact absurd ((Nat.length_toDigits_le_iff (by decide) hpos).1 (Nat.not_lt.1 hshort)) (Nat.not_lt.2 hle)
  refine eq_of_ofDigits h (fun c hc => Nat.isDigit_of_mem_toDigits (by decide) (by decide) hc) ?_ ?_
  · rw [List.length_cons]
    omega
  · exact Nat.ofDigitChars_ten_toDigits.symm

end Numbers

/-! ## Years, fractions and offsets -/

section Parts

variable {cs cs' : List Char} {k n : Nat} {y o : Int}

/-- The text of a year is a written year. -/
theorem isWrittenYear_yearText (y : Int) : IsWrittenYear (yearText y) y := by
  unfold yearText
  split
  · rename_i h
    rw [Bool.and_eq_true, decide_eq_true_eq, decide_eq_true_eq] at h
    obtain ⟨n, rfl⟩ := Int.eq_ofNat_of_zero_le h.1
    exact .plain (isNumber_padded_of_lt (by decide) (by omega))
  · rename_i h
    rw [Bool.and_eq_true, decide_eq_true_eq, decide_eq_true_eq] at h
    have hnumber := isNumber_padded 4 y.natAbs
    have hzero (hle : 10 ^ 4 ≤ y.natAbs) : (padded 4 y.natAbs).head? ≠ some '0' := by
      rw [padded_of_le (by decide) hle]
      exact JsonNumber.head?_toDigits_ne_zero (by omega)
    split
    · rename_i hneg
      have hlong (hlength : 4 < (padded 4 y.natAbs).length) : 10 ^ 4 ≤ y.natAbs := by
        by_contra hlt
        have hshort := (isNumber_padded_of_lt (by decide : 0 < 4) (Nat.not_le.1 hlt)).atMost
        omega
      have hearly := IsWrittenYear.early hnumber (by omega) fun hlength => hzero (hlong hlength)
      rwa [show -(y.natAbs : Int) = y by omega] at hearly
    · have hlate := IsWrittenYear.late hnumber (by omega) (hzero (by omega))
      rwa [show (y.natAbs : Int) = y by omega] at hlate

/-- A year is written in one way only. -/
theorem IsWrittenYear.eq (h : IsWrittenYear cs y) : cs = yearText y := by
  cases h with
  | @plain _ n h =>
    have hlt := h.lt
    have hin : (0 ≤ (n : Int) && (n : Int) ≤ 9999) = true := by
      rw [Bool.and_eq_true, decide_eq_true_eq, decide_eq_true_eq]
      omega
    rw [yearText, if_pos hin, Int.toNat_natCast]
    exact h.eq (isNumber_padded_of_lt (by decide) hlt)
  | @late ds n h hn hzero =>
    have hout : ¬ (0 ≤ (n : Int) && (n : Int) ≤ 9999) = true := by
      rw [Bool.and_eq_true, decide_eq_true_eq, decide_eq_true_eq]
      omega
    have hne : ds ≠ [] := fun hnil => absurd h.atLeast (by simp [hnil])
    have hds := eq_toDigits h.digits hne hzero
    rw [h.value] at hds
    rw [yearText, if_neg hout, if_neg (by omega), Int.natAbs_natCast, padded_of_le (by decide) (by omega), hds]
  | @early ds n h hn hzero =>
    have hout : ¬ (0 ≤ -(n : Int) && -(n : Int) ≤ 9999) = true := by
      rw [Bool.and_eq_true, decide_eq_true_eq, decide_eq_true_eq]
      omega
    rw [yearText, if_neg hout, if_pos (by omega), Int.natAbs_neg, Int.natAbs_natCast]
    congr 1
    -- four digits may start with zeros, more may not
    rcases h.atLeast.eq_or_lt with hfour | hlong
    · have hfixed : IsNumber 4 4 ds n := ⟨h.digits, h.atLeast, hfour.ge, h.value⟩
      exact hfixed.eq (isNumber_padded_of_lt (by decide) hfixed.lt)
    · have hne : ds ≠ [] := fun hnil => absurd hlong (by simp [hnil])
      have hds := eq_toDigits h.digits hne (hzero hlong)
      rw [h.value] at hds
      have hle : 10 ^ 4 ≤ n := by
        by_contra hlt
        have hshort : (Nat.toDigits 10 n).length ≤ 4 :=
          (Nat.length_toDigits_le_iff (by decide) (by decide)).2 (Nat.not_le.1 hlt)
        rw [← hds] at hshort
        omega
      rw [padded_of_le (by decide) hle, ← hds]

/-- A fraction of `k` digits is a multiple of its last place. -/
theorem IsExactFraction.dvd (h : IsExactFraction k cs n) : 10 ^ (9 - k) ∣ n := by
  obtain ⟨ds, m, -, -, rfl⟩ := h
  exact Nat.dvd_mul_left _ _

/-- A multiple of the last of `k` places is written with `k` digits. -/
theorem isExactFraction_of_dvd (hk : 0 < k) (hk9 : k ≤ 9) (hn : n < 10 ^ 9) (h : 10 ^ (9 - k) ∣ n) :
    IsExactFraction k ('.' :: padded k (n / 10 ^ (9 - k))) n := by
  refine ⟨_, n / 10 ^ (9 - k), (if_neg hk.ne').symm, isNumber_padded_of_lt hk ?_, Nat.div_mul_cancel h⟩
  rw [Nat.div_lt_iff_lt_mul (Nat.pow_pos (by decide)), ← Nat.pow_add, Nat.add_sub_cancel' hk9]
  exact hn

/-- The text of a fraction is the shortest that is exact. -/
theorem isShortestFraction_fractionText (hn : n < 10 ^ 9) : IsShortestFraction (fractionText n) n := by
  -- a shorter fraction would be exact only of a multiple of a greater power of ten
  have hshortest {k : Nat} {cs : List Char} (hk : k ∈ fractionLengths) (hexact : IsExactFraction k cs n)
      (hleast : ∀ j ∈ fractionLengths, j < k → ¬ 10 ^ (9 - j) ∣ n) : IsShortestFraction cs n :=
    ⟨k, hk, hexact, fun j hj hjk cs' h => hleast j hj hjk h.dvd⟩
  have hlengths {j : Nat} (hj : j ∈ fractionLengths) : j = 0 ∨ j = 3 ∨ j = 6 ∨ j = 9 := by
    simpa [fractionLengths] using hj
  unfold fractionText
  split
  case isTrue hzero =>
    subst hzero
    have hnone : IsNumber 0 0 [] 0 := ⟨fun c hc => (List.not_mem_nil hc).elim, le_rfl, le_rfl, rfl⟩
    exact hshortest (by decide) ⟨[], 0, rfl, hnone, rfl⟩ fun j _ hj => absurd hj (Nat.not_lt_zero j)
  case isFalse hne =>
    have hsecond : ¬ 10 ^ 9 ∣ n := Nat.not_dvd_of_pos_of_lt (Nat.pos_of_ne_zero hne) hn
    split
    case isTrue hmilli =>
      refine hshortest (by decide) (isExactFraction_of_dvd (k := 3) (by decide) (by decide) hn
        (Nat.dvd_of_mod_eq_zero hmilli)) ?_
      intro j hj hlt
      obtain rfl : j = 0 := by have := hlengths hj; omega
      exact hsecond
    case isFalse hmilli =>
      have hmilli : ¬ 10 ^ 6 ∣ n := fun h => hmilli (Nat.mod_eq_zero_of_dvd h)
      split
      case isTrue hmicro =>
        refine hshortest (by decide) (isExactFraction_of_dvd (k := 6) (by decide) (by decide) hn
          (Nat.dvd_of_mod_eq_zero hmicro)) ?_
        intro j hj hlt
        obtain rfl | rfl : j = 0 ∨ j = 3 := by have := hlengths hj; omega
        · exact hsecond
        · exact hmilli
      case isFalse hmicro =>
        have hmicro : ¬ 10 ^ 3 ∣ n := fun h => hmicro (Nat.mod_eq_zero_of_dvd h)
        have hnano := isExactFraction_of_dvd (k := 9) (by decide) (by decide) hn (Nat.one_dvd n)
        rw [Nat.sub_self, Nat.pow_zero, Nat.div_one] at hnano
        refine hshortest (by decide) hnano ?_
        intro j hj hlt
        obtain rfl | rfl | rfl : j = 0 ∨ j = 3 ∨ j = 6 := by have := hlengths hj; omega
        · exact hsecond
        · exact hmilli
        · exact hmicro

/-- A fraction is written in one way only. -/
theorem IsShortestFraction.eq (h : IsShortestFraction cs n) (h' : IsShortestFraction cs' n) : cs = cs' := by
  obtain ⟨k, hk, hexact, hleast⟩ := h
  obtain ⟨k', hk', hexact', hleast'⟩ := h'
  have hkk : k = k' := by
    rcases Nat.lt_trichotomy k k' with hlt | heq | hgt
    · exact absurd hexact (hleast' k hk hlt cs)
    · exact heq
    · exact absurd hexact' (hleast k' hk' hgt cs')
  subst hkk
  obtain ⟨ds, m, rfl, hm, hvalue⟩ := hexact
  obtain ⟨ds', m', rfl, hm', rfl⟩ := hexact'
  obtain rfl := Nat.eq_of_mul_eq_mul_right (Nat.pow_pos (by decide)) hvalue
  rw [hm.eq hm']

/-- The text of an offset is a written offset. -/
theorem isWrittenOffset_offsetText (ho : o.natAbs < 6000) : IsWrittenOffset (offsetText o) o := by
  unfold offsetText
  split
  case isTrue hzero =>
    subst hzero
    exact .none
  case isFalse hne =>
    have hours : IsNumber 2 2 _ (o.natAbs / 60) := isNumber_padded_of_lt (by decide) (by omega)
    have minutes : IsNumber 2 2 _ (o.natAbs % 60) := isNumber_padded_of_lt (by decide) (by omega)
    have hlt : o.natAbs % 60 < 60 := Nat.mod_lt _ (by decide)
    have hsize : o.natAbs / 60 * 60 + o.natAbs % 60 = o.natAbs := Nat.div_add_mod' _ _
    split
    case isTrue hneg =>
      have hbehind := IsWrittenOffset.behind hours minutes hlt (by omega)
      rwa [hsize, show -(o.natAbs : Int) = o by omega] at hbehind
    case isFalse hpos =>
      have hahead := IsWrittenOffset.ahead hours minutes hlt (by omega)
      rwa [hsize, show (o.natAbs : Int) = o by omega] at hahead

/-- An offset is written in one way only. -/
theorem IsWrittenOffset.eq (h : IsWrittenOffset cs o) : cs = offsetText o := by
  have hparts {h m : Nat} (hm : m < 60) : (h * 60 + m) / 60 = h ∧ (h * 60 + m) % 60 = m := by omega
  have hpadded {ds : List Char} {n : Nat} (h : IsNumber 2 2 ds n) : ds = padded 2 n :=
    h.eq (isNumber_padded_of_lt (by decide) h.lt)
  cases h with
  | none => rfl
  | ahead hours minutes hm hpos =>
    rw [offsetText, if_neg (by omega), if_neg (by omega), Int.natAbs_natCast, (hparts hm).1, (hparts hm).2,
      ← hpadded hours, ← hpadded minutes]
  | behind hours minutes hm hpos =>
    rw [offsetText, if_neg (by omega), if_pos (by omega), Int.natAbs_neg, Int.natAbs_natCast, (hparts hm).1,
      (hparts hm).2, ← hpadded hours, ← hpadded minutes]

end Parts

/-! ## Timestamps -/

/-- Parts that fit the width in which they are written. -/
structure Parts.Fits (p : Parts) : Prop where
  month : p.month < 100
  day : p.day < 100
  hour : p.hour < 100
  minute : p.minute < 100
  second : p.second < 100
  nanosecond : p.nanosecond < 10 ^ 9
  offset : p.offset.natAbs < 6000

/-- The parts as they are written. -/
def Parts.text (p : Parts) : List Char :=
  yearText p.year ++ '-' :: (padded 2 p.month ++ '-' :: (padded 2 p.day ++ 'T' ::
    (padded 2 p.hour ++ ':' :: (padded 2 p.minute ++ ':' :: (padded 2 p.second ++
      (fractionText p.nanosecond ++ offsetText p.offset))))))

/-- The parts of a timestamp: a leap second is the second 60. -/
def parts (t : Timestamp) : Parts where
  year := t.year
  month := t.month
  day := t.day
  hour := t.hour
  minute := t.minute
  second := if 1000000000 ≤ t.nanosecond then t.second + 1 else t.second
  nanosecond := if 1000000000 ≤ t.nanosecond then t.nanosecond - 1000000000 else t.nanosecond
  offset := t.offset

section

variable {cs : List Char} {p : Parts} {s : String} {t : Timestamp}

/-- The text of an instant is the text of its parts. -/
theorem toList_toText (t : Timestamp) : t.toText.toList = t.parts.text := by
  by_cases hleap : 1000000000 ≤ t.nanosecond
  · simp only [toText, parts, if_pos hleap, String.toList_ofList]
    rfl
  · simp only [toText, parts, if_neg hleap, String.toList_ofList]
    rfl

/-- The text of parts that fit spells them in the grammar of what is written. -/
theorem Parts.Fits.spells_text (h : p.Fits) : Grammar.written.Spells p.text p := by
  have hpart {n : Nat} (hn : n < 100) : IsNumber 2 2 (padded 2 n) n := isNumber_padded_of_lt (by decide) hn
  have hspells : Grammar.written.Spells _ p := .intro (g := Grammar.written) rfl (isWrittenYear_yearText _)
    rfl (hpart h.month) rfl (hpart h.day) rfl (hpart h.hour) rfl (hpart h.minute) rfl (hpart h.second)
    (isShortestFraction_fractionText h.nanosecond) rfl (isWrittenOffset_offsetText h.offset) rfl
  simpa [Parts.text] using hspells

/-- Parts have one text in the written form. -/
theorem Parts.Fits.spells_written_iff (h : p.Fits) : Grammar.written.Spells cs p ↔ cs = p.text := by
  constructor
  · intro hspells
    have hpart {ds : List Char} {n : Nat} (h : IsNumber 2 2 ds n) : ds = padded 2 n :=
      h.eq (isNumber_padded_of_lt (by decide) h.lt)
    cases hspells with
    | intro hfront hyear hdash hmonth hdash' hday ht hhour hcolon hminute hcolon' hsecond hfraction hgap
        hoffset hback =>
      rw [hfront, hyear.eq, hdash, hpart hmonth, hdash', hpart hday, ht, hpart hhour, hcolon, hpart hminute,
        hcolon', hpart hsecond, hfraction.eq (isShortestFraction_fractionText h.nanosecond), hgap, hoffset.eq,
        hback, List.append_nil]
      rfl
  · rintro rfl
    exact h.spells_text

/-! ### Reading what was written -/

/-- A fraction of a second is less than a second. -/
theorem IsFraction.lt {n : Nat} (h : IsFraction cs n) : n < 10 ^ 9 := by
  cases h with
  | none => decide
  | @digits ds hds hne =>
    have hlength : (ds.take 9).length ≤ 9 := List.length_take_le _ _
    have hlt : Number.ofDigits (ds.take 9) < _ := ofDigits_lt fun c hc => hds c (List.mem_of_mem_take hc)
    calc Number.ofDigits (ds.take 9) * 10 ^ (9 - (ds.take 9).length)
      _ < 10 ^ (ds.take 9).length * 10 ^ (9 - (ds.take 9).length) :=
        Nat.mul_lt_mul_of_pos_right hlt (Nat.pow_pos (by decide))
      _ = 10 ^ 9 := by rw [← Nat.pow_add, Nat.add_sub_cancel' hlength]

/-- A written year is one of the lenient grammar. -/
theorem IsWrittenYear.lenient {y : Int} (h : IsWrittenYear cs y) : IsLenientYear cs y := by
  cases h with
  | plain h => exact .unsigned (h.widen (by decide) le_rfl)
  | late h => exact .plus (h.widen (by decide) le_rfl)
  | early h => exact .minus (h.widen (by decide) le_rfl)

/-- The shortest exact fraction is a fraction. -/
theorem IsShortestFraction.isFraction {n : Nat} (h : IsShortestFraction cs n) : IsFraction cs n := by
  obtain ⟨k, hk, ⟨ds, m, rfl, hm, rfl⟩, -⟩ := h
  have hlength : ds.length = k := le_antisymm hm.atMost hm.atLeast
  split
  case isTrue hzero =>
    subst hzero
    obtain rfl : m = 0 := Nat.lt_one_iff.1 hm.lt
    exact .none
  case isFalse hne =>
    have hnine : k ≤ 9 := by
      simp only [fractionLengths, List.mem_cons, List.not_mem_nil, or_false] at hk
      omega
    have hdigits := IsFraction.digits hm.digits (List.ne_nil_of_length_pos (by omega))
    rwa [List.take_of_length_le (by omega), hm.value, hlength] at hdigits

/-- Documents are read by a grammar that has all written texts. -/
theorem spells_lenient_of_written (h : Grammar.written.Spells cs p) : Grammar.lenient.Spells cs p := by
  have hblank {cs : List Char} (h : cs = []) : Blanks cs := fun c hc => absurd hc (h ▸ List.not_mem_nil)
  have hpart {ds : List Char} {n : Nat} (h : IsNumber 2 2 ds n) : Grammar.lenient.part ds n :=
    ⟨[], ds, rfl, hblank rfl, h.widen (by decide) le_rfl⟩
  have hseparator {c : Char} {ds : List Char} (h : ds = [c]) : Grammar.lenient.separator c ds :=
    ⟨[], h, hblank rfl⟩
  have hoffset {ds : List Char} {o : Int} (h : IsWrittenOffset ds o) : Grammar.lenient.offset ds o := by
    have hcolon : ∀ c ∈ [':'], c = ':' ∨ Text.isBlank c = true := fun c hc => .inl (List.mem_singleton.1 hc)
    cases h with
    | none => exact .inr (.universal (.inl rfl))
    | @ahead hs ms _ _ hours minutes hm =>
      exact .inr (@IsOffset.ahead _ hs [':'] ms _ _ hours hcolon minutes hm)
    | @behind hs ms _ _ hours minutes hm =>
      exact .inr (@IsOffset.behind _ _ hs [':'] ms _ _ (.inl rfl) hours hcolon minutes hm)
  cases h with
  | intro front year dash month dash' day t hour colon minute colon' second fraction gap offset back =>
    exact .intro (g := Grammar.lenient) (hblank front) year.lenient (hseparator dash) (hpart month)
      (hseparator dash') (hpart day) (.inl t) (hpart hour) (hseparator colon) (hpart minute)
      (hseparator colon') (hpart second) fraction.isFraction (hblank gap) (hoffset offset) (hblank back)

/-- What is checked of the parts that are put together, and what becomes of them. -/
theorem exists_of_timestamp? (h : p.timestamp? = some t) :
    ∃ second nanosecond, t = ⟨p.year, p.month, p.day, p.hour, p.minute, second, nanosecond, p.offset⟩ ∧
      (second, nanosecond) = (if p.second = 60 then (59, p.nanosecond + 1000000000)
        else (p.second, p.nanosecond)) ∧
      Calendar.isDate p.year p.month p.day = true ∧ p.hour < 24 ∧ p.minute < 60 ∧ second < 60 ∧
      p.offset.natAbs < 1440 := by
  unfold Parts.timestamp? ofParts? at h
  generalize hkept : (if p.second = 60 then (59, p.nanosecond + 1000000000)
    else (p.second, p.nanosecond)) = kept at h ⊢
  obtain ⟨second, nanosecond⟩ := kept
  simp only [Option.ite_none_right_eq_some, Option.some.injEq, Bool.and_eq_true, decide_eq_true_eq] at h
  obtain ⟨⟨⟨⟨⟨⟨⟨-, hdate⟩, hhour⟩, hminute⟩, hsecond⟩, hoffset⟩, -⟩, ht⟩ := h
  exact ⟨second, nanosecond, ht.symm, rfl, hdate, hhour, hminute, hsecond, hoffset⟩

/-- The parts an instant is read from are its parts, and they fit. -/
theorem parts_of_timestamp? (h : p.timestamp? = some t) (hn : p.nanosecond < 10 ^ 9) :
    t.parts = p ∧ p.Fits := by
  obtain ⟨second, nanosecond, rfl, hkept, hdate, hhour, hminute, hsecond, hoffset⟩ := exists_of_timestamp? h
  have hday (y : Int) (m : Nat) : Calendar.daysInMonth y m ≤ 31 := by
    unfold Calendar.daysInMonth
    split
    · split <;> decide
    all_goals decide
  have hmonth := hday p.year p.month
  simp only [Calendar.isDate, Bool.and_eq_true, decide_eq_true_eq] at hdate
  split at hkept
  case isTrue hleap =>
    obtain ⟨rfl, rfl⟩ := Prod.mk.inj hkept
    refine ⟨?_, by constructor <;> omega⟩
    obtain ⟨_, _, _, _, _, second, _, _⟩ := p
    obtain rfl : second = 60 := hleap
    simp [parts]
  case isFalse hplain =>
    obtain ⟨rfl, rfl⟩ := Prod.mk.inj hkept
    refine ⟨?_, by constructor <;> omega⟩
    have hlt : ¬ 1000000000 ≤ p.nanosecond := by omega
    simp [parts, hlt]

/-- What the lenient grammar spells has less than a second of nanoseconds. -/
theorem nanosecond_lt_of_spells_lenient (h : Grammar.lenient.Spells cs p) : p.nanosecond < 10 ^ 9 := by
  cases h with
  | intro _ _ _ _ _ _ _ _ _ _ _ _ hfraction => exact hfraction.lt

/-- The parts of an instant that is read are read as that instant. -/
theorem timestamp?_parts (h : ofText? s = some t) : t.parts.timestamp? = some t ∧ t.parts.Fits := by
  obtain ⟨p, hspells, hp⟩ := ofText?_eq_some_iff.1 h
  obtain ⟨hparts, hfits⟩ := parts_of_timestamp? hp (nanosecond_lt_of_spells_lenient hspells)
  rw [hparts]
  exact ⟨hp, hfits⟩

/-- A timestamp that was read has one written text. -/
theorem spells_written_iff (h : ofText? s = some t) {w : String} :
    Grammar.written.Spells w.toList t.parts ↔ w = t.toText := by
  rw [(timestamp?_parts h).2.spells_written_iff, ← toList_toText, String.toList_inj]

/-- A timestamp that was read is read again from what is written of it. -/
theorem ofText?_toText (h : ofText? s = some t) : ofText? t.toText = some t := by
  obtain ⟨hparts, hfits⟩ := timestamp?_parts h
  refine ofText?_eq_some_iff.2 ⟨t.parts, spells_lenient_of_written ?_, hparts⟩
  rw [toList_toText]
  exact hfits.spells_text

end

end ProvenanceTrail.Timestamp
