import ProvenanceTrail.Proofs.Time.Writing
import ProvenanceTrail.Proofs.Trust.Decoding
import ProvenanceTrail.Proofs.Trust.SignatureEquation
import ProvenanceTrail.Trust.Certificate

/-!
# The key in a certificate

A certificate is a tree of elements. `Certificate.Carries` says, from the leaves up, which bytes are a
certificate and which key stands in it; it is written in terms of elements in a row (`Der.Elements`) only.
The reader goes through the same tree from the front, and finds the key exactly if there is one
(`Certificate.key?_eq_some_iff`).
-/

namespace ProvenanceTrail

open Der

namespace Der

variable {tag : UInt8} {bytes contents rest : List UInt8} {e : UInt8 × List UInt8}
  {es : List (UInt8 × List UInt8)}

/-! ## Reading elements one after the other -/

/-- The contents of a string of bits: how many bits of the last byte are unused, and the bytes. -/
inductive IsBits : List UInt8 → List UInt8 → Prop
  | intro {unused : UInt8} {bytes : List UInt8} : unused ≤ 7 → (unused = 0 ∨ bytes ≠ []) →
      IsBits (unused :: bytes) bytes

/-- A bit string is read just if the contents are one without unused bits. -/
theorem bits?_eq_some_iff : bits? contents = some bytes ↔ IsBits contents bytes := by
  constructor
  · intro h
    cases contents with
    | nil => cases h
    | cons unused rest =>
      simp only [bits?] at h
      split_ifs at h with hform
      obtain rfl := Option.some.inj h
      obtain ⟨hle, hempty⟩ : unused ≤ 7 ∧ (unused = 0 ∨ rest ≠ []) := by simpa using hform
      exact .intro hle hempty
  · rintro ⟨hle, hempty⟩
    exact if_pos (by simpa using ⟨hle, hempty⟩)

/-- The contents of an integer: one byte at least, and no first byte that only repeats the sign. -/
structure IsInteger (contents : List UInt8) : Prop where
  nonempty : contents ≠ []
  shortest : ∀ a b rest, contents = a :: b :: rest → ¬ (a = 0 ∧ b < 0x80) ∧ ¬ (a = 0xFF ∧ 0x80 ≤ b)

/-- The check of an integer tells just the shortest encodings. -/
theorem isInteger_iff : isInteger contents = true ↔ IsInteger contents := by
  rcases contents with _ | ⟨a, _ | ⟨b, rest⟩⟩
  · exact ⟨nofun, fun h => absurd rfl h.nonempty⟩
  · exact ⟨fun _ => ⟨by simp, by simp⟩, fun _ => rfl⟩
  · constructor
    · intro h
      refine ⟨by simp, ?_⟩
      rintro _ _ _ ⟨⟩
      simpa [isInteger, imp_iff_not_or] using h
    · rintro ⟨-, h⟩
      simpa [isInteger, imp_iff_not_or] using h a b rest rfl

/-- The contents of an object identifier. -/
structure IsObjectId (contents : List UInt8) : Prop where
  least : 3 ≤ contents.length
  most : contents.length ≤ 39
  ended : ∃ front last, contents = front ++ [last] ∧ last < 0x80

/-- The check of an object identifier tells just those of a fitting length whose last number is complete. -/
theorem isObjectId_iff : isObjectId contents = true ↔ IsObjectId contents := by
  have hended : contents.getLast?.any (· < 0x80) = true ↔
      ∃ front last, contents = front ++ [last] ∧ last < 0x80 := by
    simp only [Option.any_eq_true_iff_get, decide_eq_true_eq]
    rcases List.eq_nil_or_concat contents with rfl | ⟨front, last, rfl⟩
    · simp
    · simp
  rw [isObjectId, Bool.and_eq_true, Bool.and_eq_true, decide_eq_true_eq, decide_eq_true_eq, hended]
  exact ⟨fun ⟨⟨hleast, hmost⟩, hlast⟩ => ⟨hleast, hmost, hlast⟩, fun h => ⟨⟨h.least, h.most⟩, h.ended⟩⟩

/-- Elements start with one that is expected, and go on behind it. -/
theorem elements_cons_iff_expect? : Elements ((tag, contents) :: es) bytes ↔
    ∃ rest, expect? tag bytes = some (contents, rest) ∧ Elements es rest := by
  simp only [elements_cons, expect?_eq_some_iff, element?_eq_some_iff]

/-- One element is all there is just if it is the only one read. -/
theorem elements_singleton_iff : Elements [(tag, contents)] bytes ↔ only? tag bytes = some contents := by
  simp [elements_cons_iff_expect?, expect?_eq_some_iff, only?_eq_some_iff]

/-- Two elements are read one after the other. -/
theorem elements_pair_iff {tag' : UInt8} {contents' : List UInt8} :
    Elements [(tag, contents), (tag', contents')] bytes ↔
      ∃ rest, expect? tag bytes = some (contents, rest) ∧ only? tag' rest = some contents' := by
  rw [elements_cons_iff_expect?]
  simp only [elements_singleton_iff]

/-- Three elements are read one after the other. -/
theorem elements_triple_iff {tag' tag'' : UInt8} {contents' contents'' : List UInt8} :
    Elements [(tag, contents), (tag', contents'), (tag'', contents'')] bytes ↔
      ∃ rest, expect? tag bytes = some (contents, rest) ∧ ∃ rest', expect? tag' rest = some (contents', rest') ∧
        only? tag'' rest' = some contents'' := by
  rw [elements_cons_iff_expect?]
  simp only [elements_pair_iff]

/-- A part that may be missing, in a row of elements. -/
def part (tag : UInt8) (contents : Option (List UInt8)) : List (UInt8 × List UInt8) :=
  contents.toList.map fun c => (tag, c)

/-- A part may be missing if nothing else there has its tag. -/
theorem elements_part_iff {contents : Option (List UInt8)} (h : ∀ e ∈ es.head?, e.1 ≠ tag) :
    Elements (part tag contents ++ es) bytes ↔
      ∃ rest, maybe? tag bytes = some (contents, rest) ∧ Elements es rest := by
  have hhead : ∀ {t : UInt8} {c r : List UInt8}, element? bytes = some (t, c, r) → bytes.head? = some t := by
    intro t c r helement
    obtain ⟨-, rfl⟩ := element?_eq_some_iff.1 helement
    rfl
  cases contents with
  | none =>
    have hmaybe (rest : List UInt8) : maybe? tag bytes = some (none, rest) ↔
        bytes.head? ≠ some tag ∧ rest = bytes := by
      rw [maybe?]
      split_ifs with h <;> simp [h, eq_comm]
    simp only [part, Option.toList_none, List.map_nil, List.nil_append, hmaybe]
    constructor
    · -- what comes first instead has another tag
      intro helements
      refine ⟨bytes, ⟨?_, rfl⟩, helements⟩
      cases es with
      | nil =>
        rw [elements_nil.1 helements]
        simp
      | cons e es =>
        obtain ⟨rest, helement, -⟩ := elements_cons.1 helements
        rw [hhead helement]
        exact fun heq => h e rfl (Option.some.inj heq)
    · rintro ⟨_, ⟨-, rfl⟩, helements⟩
      exact helements
  | some c =>
    have hmaybe (rest : List UInt8) : maybe? tag bytes = some (some c, rest) ↔
        expect? tag bytes = some (c, rest) := by
      rw [maybe?]
      split_ifs with hfirst
      · simp [Option.map_eq_some_iff]
      · refine ⟨by simp, fun hexpect => ?_⟩
        obtain ⟨-, rfl⟩ := expect?_eq_some_iff.1 hexpect
        exact absurd rfl hfirst
    simp only [part, Option.toList_some, List.map_cons, List.map_nil, List.cons_append, List.nil_append,
      hmaybe, elements_cons_iff_expect?]

end Der

namespace Certificate

open Timestamp (IsNumber)

variable {contents bytes bits : List UInt8} {e : UInt8 × List UInt8}

/-! ## Algorithms and names -/

/-- Contents that pass a check of their elements have elements that pass it. -/
theorem any_elements?_iff {p : List (UInt8 × List UInt8) → Bool} :
    (elements? contents).any p = true ↔ ∃ es, Elements es contents ∧ p es = true := by
  simp only [← elements?_eq_some_iff]
  cases elements? contents <;> simp

/-- The identification of an algorithm: an object identifier and at most one parameter. -/
def IsAlgorithm (contents : List UInt8) : Prop :=
  ∃ id parameters, IsObjectId id ∧ parameters.length ≤ 1 ∧ Elements ((objectId, id) :: parameters) contents

/-- The check of an algorithm tells just the algorithms. -/
theorem isAlgorithm_iff : isAlgorithm contents = true ↔ IsAlgorithm contents := by
  have hparameters (rest : List UInt8) :
      (rest.isEmpty || (elements? rest).any fun es => es.length == 1) = true ↔
        ∃ parameters, parameters.length ≤ 1 ∧ Elements parameters rest := by
    rw [Bool.or_eq_true, List.isEmpty_iff, any_elements?_iff]
    constructor
    · rintro (rfl | ⟨es, helements, hlength⟩)
      · exact ⟨[], by simp, elements_nil.2 rfl⟩
      · exact ⟨es, (beq_iff_eq.1 hlength).le, helements⟩
    · rintro ⟨_ | ⟨e, es⟩, hlength, helements⟩
      · exact .inl (elements_nil.1 helements)
      · exact .inr ⟨_, helements, by simpa using hlength⟩
  rw [isAlgorithm, IsAlgorithm]
  simp only [elements_cons_iff_expect?]
  rcases expect? objectId contents with _ | ⟨id, rest⟩
  · simp
  · simp only [Bool.and_eq_true, isObjectId_iff, hparameters, Option.some.injEq, Prod.mk.injEq]
    constructor
    · rintro ⟨hid, parameters, hlength, helements⟩
      exact ⟨id, parameters, hid, hlength, rest, ⟨rfl, rfl⟩, helements⟩
    · rintro ⟨_, parameters, hid, hlength, _, ⟨rfl, rfl⟩, helements⟩
      exact ⟨hid, parameters, hlength, helements⟩

/-- An attribute of a name: an object identifier and a value. -/
def IsNameAttribute (e : UInt8 × List UInt8) : Prop :=
  e.1 = sequence ∧ ∃ id value, IsObjectId id ∧ Elements [(objectId, id), value] e.2

/-- The check of an attribute of a name tells just these. -/
theorem isNameAttribute_iff : isNameAttribute e = true ↔ IsNameAttribute e := by
  rw [isNameAttribute, Bool.and_eq_true, beq_iff_eq, IsNameAttribute]
  refine and_congr_right fun _ => ?_
  constructor
  · intro h
    split at h
    · rename_i tag id value helements
      obtain ⟨rfl, hid⟩ : tag = objectId ∧ isObjectId id = true := by simpa using h
      exact ⟨id, value, isObjectId_iff.1 hid, elements?_eq_some_iff.1 helements⟩
    · cases h
  · rintro ⟨id, value, hid, helements⟩
    rw [elements?_eq_some_iff.2 helements]
    simpa using isObjectId_iff.2 hid

/-- A name: sets of attributes. -/
def IsName (contents : List UInt8) : Prop :=
  ∃ es, Elements es contents ∧ ∀ e ∈ es, e.1 = set ∧
    ∃ attributes, Elements attributes e.2 ∧ ∀ a ∈ attributes, IsNameAttribute a

/-- The check of a name tells just the names. -/
theorem isName_iff : isName contents = true ↔ IsName contents := by
  simp [isName, IsName, any_elements?_iff, isNameAttribute_iff]

/-! ## Periods -/

/-- Bytes as the characters with these numbers. -/
def latin (bytes : List UInt8) : List Char := bytes.map fun b => Char.ofNat b.toNat

/-- The part of a time after the year: month, day, hour, minute and second in two digits each, and a
`Z`. -/
def IsClock (year : Nat) (cs : List Char) : Prop :=
  ∃ months days hours minutes seconds month day hour minute second,
    cs = months ++ (days ++ (hours ++ (minutes ++ (seconds ++ ['Z'])))) ∧
    IsNumber 2 2 months month ∧ IsNumber 2 2 days day ∧ IsNumber 2 2 hours hour ∧
    IsNumber 2 2 minutes minute ∧ IsNumber 2 2 seconds second ∧
    Calendar.isDate year month day = true ∧ hour < 24 ∧ minute < 60 ∧ second < 60

/-- A time from 1970 on. The year has four digits, or two until 2049. -/
def IsTime (e : UInt8 × List UInt8) : Prop :=
  ∃ years clock year, latin e.2 = years ++ clock ∧ IsClock year clock ∧ 1970 ≤ year ∧
    (e.1 = longTime ∧ IsNumber 4 4 years year ∨
      e.1 = shortTime ∧ year < 2050 ∧ IsNumber 2 2 years (year % 100))

/-- A clock is ten digits that write its numbers, and a `Z`. -/
theorem isClock_iff {year : Nat} {cs : List Char} : IsClock year cs ↔
    ∃ ds : List Char, ds.length = 10 ∧ cs = ds ++ ['Z'] ∧ (∀ c ∈ ds, c.isDigit = true) ∧
      Calendar.isDate year (twoDigits ds 0) (twoDigits ds 2) = true ∧ twoDigits ds 4 < 24 ∧
      twoDigits ds 6 < 60 ∧ twoDigits ds 8 < 60 := by
  have hpair {a b : Char} {n : Nat} : IsNumber 2 2 [a, b] n ↔
      (a.isDigit = true ∧ b.isDigit = true) ∧ Number.ofDigits [a, b] = n :=
    ⟨fun h => ⟨by simpa using h.digits, h.value⟩, fun ⟨hdigits, hvalue⟩ =>
      ⟨by simpa using hdigits, le_rfl, le_rfl, hvalue⟩⟩
  constructor
  · rintro ⟨months, days, hours, minutes, seconds, month, day, hour, minute, second, rfl, hmonth, hday, hhour,
      hminute, hsecond, hdate, hhours, hminutes, hseconds⟩
    have htwo {w : List Char} {n : Nat} (h : IsNumber 2 2 w n) : w.length = 2 := le_antisymm h.atMost h.atLeast
    obtain ⟨m, m', rfl⟩ := List.length_eq_two.1 (htwo hmonth)
    obtain ⟨d, d', rfl⟩ := List.length_eq_two.1 (htwo hday)
    obtain ⟨h, h', rfl⟩ := List.length_eq_two.1 (htwo hhour)
    obtain ⟨i, i', rfl⟩ := List.length_eq_two.1 (htwo hminute)
    obtain ⟨s, s', rfl⟩ := List.length_eq_two.1 (htwo hsecond)
    obtain ⟨⟨hm, hm'⟩, rfl⟩ := hpair.1 hmonth
    obtain ⟨⟨hd, hd'⟩, rfl⟩ := hpair.1 hday
    obtain ⟨⟨hh, hh'⟩, rfl⟩ := hpair.1 hhour
    obtain ⟨⟨hi, hi'⟩, rfl⟩ := hpair.1 hminute
    obtain ⟨⟨hs, hs'⟩, rfl⟩ := hpair.1 hsecond
    exact ⟨[m, m', d, d', h, h', i, i', s, s'], rfl, rfl,
      by simp [hm, hm', hd, hd', hh, hh', hi, hi', hs, hs'], hdate, hhours, hminutes, hseconds⟩
  · rintro ⟨ds, hlength, rfl, hdigits, hdate, hhours, hminutes, hseconds⟩
    match ds, hlength with
    | [m, m', d, d', h, h', i, i', s, s'], _ =>
      obtain ⟨hm, hm', hd, hd', hh, hh', hi, hi', hs, hs'⟩ := by simpa using hdigits
      exact ⟨[m, m'], [d, d'], [h, h'], [i, i'], [s, s'], _, _, _, _, _, rfl, hpair.2 ⟨⟨hm, hm'⟩, rfl⟩,
        hpair.2 ⟨⟨hd, hd'⟩, rfl⟩, hpair.2 ⟨⟨hh, hh'⟩, rfl⟩, hpair.2 ⟨⟨hi, hi'⟩, rfl⟩,
        hpair.2 ⟨⟨hs, hs'⟩, rfl⟩, hdate, hhours, hminutes, hseconds⟩

/-- Two digits behind others are those at the later position. -/
theorem twoDigits_drop (ds : List Char) (k position : Nat) :
    twoDigits (ds.drop k) position = twoDigits ds (k + position) := by
  rw [twoDigits, twoDigits, List.drop_drop]

/-- The year that digits write: four write it in full, two write a year from 1950 to 2049. -/
def yearOf (k : Nat) (years : List Char) : Nat :=
  if k = 4 then Number.ofDigits years
  else if Number.ofDigits years < 50 then 2000 + Number.ofDigits years else 1900 + Number.ofDigits years

/-- What is checked of a time whose year has so many digits. -/
structure IsChecked (k : Nat) (cs : List Char) : Prop where
  ended : cs.drop (k + 10) = ['Z']
  length : (cs.take (k + 10)).length = k + 10
  digits : ∀ c ∈ cs.take (k + 10), c.isDigit = true
  recent : 1970 ≤ yearOf k ((cs.take (k + 10)).take k)
  date : Calendar.isDate (yearOf k ((cs.take (k + 10)).take k)) (twoDigits (cs.take (k + 10)) k)
    (twoDigits (cs.take (k + 10)) (k + 2)) = true
  hour : twoDigits (cs.take (k + 10)) (k + 4) < 24
  minute : twoDigits (cs.take (k + 10)) (k + 6) < 60
  second : twoDigits (cs.take (k + 10)) (k + 8) < 60

/-- What is checked holds of the digits of a year with a clock after them. -/
theorem isChecked_iff {k : Nat} {cs : List Char} : IsChecked k cs ↔
    ∃ years clock, cs = years ++ clock ∧ years.length = k ∧ (∀ c ∈ years, c.isDigit = true) ∧
      1970 ≤ yearOf k years ∧ IsClock (yearOf k years) clock := by
  constructor
  · intro h
    have hcs : cs = (cs.take (k + 10)).take k ++ ((cs.take (k + 10)).drop k ++ ['Z']) := by
      rw [← List.append_assoc, List.take_append_drop, ← h.ended, List.take_append_drop]
    have hlength := h.length
    refine ⟨_, _, hcs, by rw [List.length_take]; omega, fun c hc => h.digits c (List.mem_of_mem_take hc),
      h.recent, isClock_iff.2 ⟨_, by rw [List.length_drop]; omega, rfl,
        fun c hc => h.digits c (List.mem_of_mem_drop hc), ?_⟩⟩
    simp only [twoDigits_drop]
    exact ⟨h.date, h.hour, h.minute, h.second⟩
  · rintro ⟨years, _, rfl, hyears, hdigits, hrecent, hclock⟩
    obtain ⟨ds, hds, rfl, hdigits', hdate, hhour, hminute, hsecond⟩ := isClock_iff.1 hclock
    have hlength : (years ++ ds).length = k + 10 := by rw [List.length_append]; omega
    have htake : (years ++ (ds ++ ['Z'])).take (k + 10) = years ++ ds := by
      rw [← List.append_assoc, List.take_left' hlength]
    have hdrop : ds = (years ++ ds).drop k := (List.drop_left' hyears).symm
    rw [hdrop] at hdate hhour hminute hsecond
    simp only [twoDigits_drop] at hdate hhour hminute hsecond
    constructor <;> (try rw [htake])
    · rw [← List.append_assoc, List.drop_left' hlength]
    · exact hlength
    · exact fun c hc => (List.mem_append.1 hc).elim (hdigits c) (hdigits' c)
    · rwa [List.take_left' hyears]
    · rwa [List.take_left' hyears]
    · exact hhour
    · exact hminute
    · exact hsecond

/-- Times of either form are read by the digits of their years and their clock. -/
theorem isTime_iff : isTime e = true ↔ IsTime e := by
  obtain ⟨tag, bytes⟩ := e
  have hchecked : isTime (tag, bytes) = true ↔ (tag = longTime ∨ tag = shortTime) ∧
      IsChecked (if tag == longTime then 4 else 2) (latin bytes) := by
    simp only [isTime, Bool.and_eq_true, Bool.or_eq_true, beq_iff_eq, decide_eq_true_eq, List.all_eq_true]
    constructor
    · rintro ⟨⟨⟨⟨⟨⟨⟨⟨htag, hended⟩, hlength⟩, hdigits⟩, hrecent⟩, hdate⟩, hhour⟩, hminute⟩, hsecond⟩
      exact ⟨htag, hended, hlength, hdigits, hrecent, hdate, hhour, hminute, hsecond⟩
    · rintro ⟨htag, hended, hlength, hdigits, hrecent, hdate, hhour, hminute, hsecond⟩
      exact ⟨⟨⟨⟨⟨⟨⟨⟨htag, hended⟩, hlength⟩, hdigits⟩, hrecent⟩, hdate⟩, hhour⟩, hminute⟩, hsecond⟩
  rw [hchecked, isChecked_iff]
  constructor
  · rintro ⟨rfl | rfl, years, clock, heq, hlength, hdigits, hrecent, hclock⟩
    · exact ⟨years, clock, _, heq, hclock, hrecent, .inl ⟨rfl, hdigits, hlength.ge, hlength.le, rfl⟩⟩
    · have hnumber : IsNumber 2 2 years (Number.ofDigits years) := ⟨hdigits, hlength.ge, hlength.le, rfl⟩
      have hlt : Number.ofDigits years < 100 := hnumber.lt
      -- two digits are of a year from 1950 to 2049
      have hyear : yearOf 2 years < 2050 ∧ yearOf 2 years % 100 = Number.ofDigits years := by
        rw [yearOf, if_neg (by decide)]
        split_ifs <;> omega
      exact ⟨years, clock, _, heq, hclock, hrecent, .inr ⟨rfl, hyear.1, hyear.2 ▸ hnumber⟩⟩
  · rintro ⟨years, clock, year, heq, hclock, hrecent, ⟨rfl, hnumber⟩ | ⟨rfl, hlt, hnumber⟩⟩
    · have hyear : yearOf 4 years = year := hnumber.value
      rw [← hyear] at hclock hrecent
      exact ⟨.inl rfl, years, clock, heq, le_antisymm hnumber.atMost hnumber.atLeast, hnumber.digits, hrecent, hclock⟩
    · have hyear : yearOf 2 years = year := by
        rw [yearOf, if_neg (by decide), hnumber.value]
        split_ifs <;> omega
      rw [← hyear] at hclock hrecent
      exact ⟨.inr rfl, years, clock, heq, le_antisymm hnumber.atMost hnumber.atLeast, hnumber.digits, hrecent, hclock⟩

/-- A period: two times. -/
def IsPeriod (contents : List UInt8) : Prop :=
  ∃ start finish, Elements [start, finish] contents ∧ IsTime start ∧ IsTime finish

/-- The check of a period of validity tells just the periods. -/
theorem isPeriod_iff : isPeriod contents = true ↔ IsPeriod contents := by
  rw [isPeriod, IsPeriod]
  constructor
  · intro h
    split at h
    · rename_i start finish helements
      obtain ⟨hstart, hfinish⟩ := Bool.and_eq_true_iff.1 h
      exact ⟨start, finish, elements?_eq_some_iff.1 helements, isTime_iff.1 hstart, isTime_iff.1 hfinish⟩
    · cases h
  · rintro ⟨start, finish, helements, hstart, hfinish⟩
    rw [elements?_eq_some_iff.2 helements]
    exact Bool.and_eq_true_iff.2 ⟨isTime_iff.2 hstart, isTime_iff.2 hfinish⟩

/-! ## Keys and extensions -/

/-- A key with its algorithm. -/
def IsKey (contents bits : List UInt8) : Prop :=
  ∃ algorithm string, Elements [(sequence, algorithm), (bitString, string)] contents ∧
    IsAlgorithm algorithm ∧ IsBits string bits

/-- The bits of a key are read just from the contents of one. -/
theorem keyBits?_eq_some_iff : keyBits? contents = some bits ↔ IsKey contents bits := by
  simp only [keyBits?, Option.bind_eq_bind, Option.bind_eq_some_iff, Prod.exists, Option.ite_none_right_eq_some,
    isAlgorithm_iff, bits?_eq_some_iff, IsKey, elements_pair_iff]
  constructor
  · rintro ⟨algorithm, rest, halgorithm, string, hstring, hform, hbits⟩
    exact ⟨algorithm, string, ⟨rest, halgorithm, hstring⟩, hform, hbits⟩
  · rintro ⟨algorithm, string, ⟨rest, halgorithm, hstring⟩, hform, hbits⟩
    exact ⟨algorithm, rest, halgorithm, string, hstring, hform, hbits⟩

/-- An extension: an object identifier, a truth value if there is one, and bytes. -/
def IsExtension (e : UInt8 × List UInt8) : Prop :=
  e.1 = sequence ∧ ∃ id critical value, IsObjectId id ∧ (∀ c ∈ critical, c = [0x00] ∨ c = [0xFF]) ∧
    Elements ((objectId, id) :: (part boolean critical ++ [(octetString, value)])) e.2

/-- The check of an extension tells just the extensions. -/
theorem isExtension_iff : isExtension e = true ↔ IsExtension e := by
  rw [isExtension, Bool.and_eq_true, beq_iff_eq, IsExtension]
  refine and_congr_right fun _ => ?_
  constructor
  · intro h
    split at h
    · rename_i id value helements
      obtain ⟨⟨hid, hobject⟩, hvalue⟩ : (id.1 = objectId ∧ isObjectId id.2 = true) ∧ value.1 = octetString := by
        simpa using h
      refine ⟨id.2, none, value.2, isObjectId_iff.1 hobject, by simp, ?_⟩
      rw [← hid, ← hvalue]
      exact elements?_eq_some_iff.1 helements
    · rename_i id critical value helements
      obtain ⟨⟨⟨hid, hobject⟩, htag, hcritical⟩, hvalue⟩ :
          ((id.1 = objectId ∧ isObjectId id.2 = true) ∧ critical.1 = boolean ∧
            (critical.2 = [0x00] ∨ critical.2 = [0xFF])) ∧ value.1 = octetString := by
        simpa using h
      refine ⟨id.2, some critical.2, value.2, isObjectId_iff.1 hobject, by simpa using hcritical, ?_⟩
      rw [← hid, ← hvalue, ← htag]
      exact elements?_eq_some_iff.1 helements
    · cases h
  · rintro ⟨id, critical, value, hid, hcritical, helements⟩
    cases critical with
    | none =>
      rw [elements?_eq_some_iff.2 helements]
      simpa [part] using isObjectId_iff.2 hid
    | some c =>
      rw [elements?_eq_some_iff.2 helements]
      simpa [part] using ⟨isObjectId_iff.2 hid, hcritical c rfl⟩

/-- A list of extensions. -/
def IsExtensions (contents : List UInt8) : Prop :=
  ∃ list es, Elements [(sequence, list)] contents ∧ Elements es list ∧ ∀ e ∈ es, IsExtension e

/-- The number of a version, which is at most two. -/
def IsVersion (contents : List UInt8) : Prop :=
  ∃ n, n ≤ 2 ∧ Elements [(integer, naturalContents n)] contents

/-! ## The signed part -/

/-- The contents of the elements of the signed part; the first and the last three may be missing. -/
structure SignedPart where
  version : Option (List UInt8)
  serial : List UInt8
  algorithm : List UInt8
  issuer : List UInt8
  period : List UInt8
  subject : List UInt8
  key : List UInt8
  issuerId : Option (List UInt8)
  subjectId : Option (List UInt8)
  extensions : Option (List UInt8)

namespace SignedPart

/-- The elements of the signed part, in order. -/
def elements (s : SignedPart) : List (UInt8 × List UInt8) :=
  part (constructed 0) s.version ++ (integer, s.serial) :: (sequence, s.algorithm) :: (sequence, s.issuer) ::
    (sequence, s.period) :: (sequence, s.subject) :: (sequence, s.key) ::
      (part (primitive 1) s.issuerId ++ (part (primitive 2) s.subjectId ++
        (part (constructed 3) s.extensions ++ [])))

/-- A signed part all of whose elements are what they should be, with the bits of its key. -/
structure IsSound (s : SignedPart) (bits : List UInt8) : Prop where
  version : ∀ c ∈ s.version, IsVersion c
  serial : IsInteger s.serial ∧ s.serial.length ≤ 21
  algorithm : IsAlgorithm s.algorithm
  issuer : IsName s.issuer
  period : IsPeriod s.period
  subject : IsName s.subject
  key : IsKey s.key bits
  issuerId : ∀ c ∈ s.issuerId, ∃ bytes, IsBits c bytes
  subjectId : ∀ c ∈ s.subjectId, ∃ bytes, IsBits c bytes
  extensions : ∀ c ∈ s.extensions, IsExtensions c

end SignedPart

/-- An optional bit string is checked where it is present. -/
theorem any_bits?_iff {o : Option (List UInt8)} : (o.all fun c => (bits? c).isSome) = true ↔
    ∀ c ∈ o, ∃ bytes, IsBits c bytes := by
  cases o <;> simp [Option.isSome_iff_exists, bits?_eq_some_iff]

/-- The check of a version tells just the versions. -/
theorem isVersion_iff :
    ((only? integer contents).bind natural?).any (· ≤ 2) = true ↔ IsVersion contents := by
  simp only [IsVersion, elements_singleton_iff, Option.any_eq_true, Option.bind_eq_some_iff,
    natural?_eq_some_iff, decide_eq_true_eq]
  constructor
  · rintro ⟨n, ⟨c, hc, rfl⟩, hn⟩
    exact ⟨n, hn, hc⟩
  · rintro ⟨n, hn, hc⟩
    exact ⟨n, ⟨_, hc, rfl⟩, hn⟩

/-- The check of a list of extensions tells just such lists. -/
theorem isExtensions_iff :
    (((only? sequence contents).bind elements?).any fun es => es.all isExtension) = true ↔
      IsExtensions contents := by
  simp only [IsExtensions, elements_singleton_iff, Option.any_eq_true, Option.bind_eq_some_iff,
    elements?_eq_some_iff, List.all_eq_true, isExtension_iff]
  constructor
  · rintro ⟨es, ⟨list, hlist, helements⟩, hes⟩
    exact ⟨list, es, hlist, helements, hes⟩
  · rintro ⟨list, es, hlist, helements, hes⟩
    exact ⟨es, ⟨list, hlist, helements⟩, hes⟩

/-- What may stand after the key of the signed part. -/
theorem isEnding_iff : isEnding bytes = true ↔ ∃ issuerId subjectId extensions : Option (List UInt8),
    Elements (part (primitive 1) issuerId ++ (part (primitive 2) subjectId ++
      (part (constructed 3) extensions ++ []))) bytes ∧
    (∀ c ∈ issuerId, ∃ bytes, IsBits c bytes) ∧ (∀ c ∈ subjectId, ∃ bytes, IsBits c bytes) ∧
    ∀ c ∈ extensions, IsExtensions c := by
  have hall {o : Option (List UInt8)} : o.all (fun contents =>
      ((only? sequence contents).bind elements?).any fun es => es.all isExtension) = true ↔
        ∀ c ∈ o, IsExtensions c := by
    cases o <;> simp [← isExtensions_iff]
  have hparts {issuerId subjectId extensions : Option (List UInt8)} :
      Elements (part (primitive 1) issuerId ++ (part (primitive 2) subjectId ++
        (part (constructed 3) extensions ++ []))) bytes ↔
      ∃ rest, maybe? (primitive 1) bytes = some (issuerId, rest) ∧
        ∃ rest', maybe? (primitive 2) rest = some (subjectId, rest') ∧
          maybe? (constructed 3) rest' = some (extensions, []) := by
    rw [elements_part_iff]
    · refine exists_congr fun rest => and_congr_right fun _ => ?_
      rw [elements_part_iff]
      · refine exists_congr fun rest' => and_congr_right fun _ => ?_
        rw [elements_part_iff (by simp)]
        simp
      · cases extensions with
        | none => simp [part]
        | some => simp [part, primitive, constructed]
    · cases subjectId <;> cases extensions <;> simp [part, primitive, constructed]
  simp only [isEnding, Option.isSome_iff_exists, Option.bind_eq_bind, Option.bind_eq_some_iff, Prod.exists,
    Option.ite_none_right_eq_some, Bool.and_eq_true, List.isEmpty_iff, any_bits?_iff, hall, hparts]
  constructor
  · rintro ⟨-, issuerId, rest, hissuer, subjectId, rest', hsubject, extensions, -, hextensions,
      ⟨⟨⟨rfl, hissuerId⟩, hsubjectId⟩, hall⟩, -⟩
    exact ⟨issuerId, subjectId, extensions, ⟨rest, hissuer, rest', hsubject, hextensions⟩, hissuerId, hsubjectId,
      hall⟩
  · rintro ⟨issuerId, subjectId, extensions, ⟨rest, hissuer, rest', hsubject, hextensions⟩, hissuerId, hsubjectId,
      hall⟩
    exact ⟨(), issuerId, rest, hissuer, subjectId, rest', hsubject, extensions, [], hextensions,
      ⟨⟨⟨rfl, hissuerId⟩, hsubjectId⟩, hall⟩, trivial⟩

/-- The signed part is read exactly from its elements in a row. -/
theorem signedPart?_eq_some_iff : signedPart? contents = some bits ↔
    ∃ s : SignedPart, Elements s.elements contents ∧ s.IsSound bits := by
  have hversion {o : Option (List UInt8)} : o.all (fun c =>
      ((only? integer c).bind natural?).any (· ≤ 2)) = true ↔ ∀ c ∈ o, IsVersion c := by
    cases o <;> simp [← isVersion_iff]
  have helements (s : SignedPart) : Elements s.elements contents ↔
      ∃ r₁, maybe? (constructed 0) contents = some (s.version, r₁) ∧
        ∃ r₂, expect? integer r₁ = some (s.serial, r₂) ∧
          ∃ r₃, expect? sequence r₂ = some (s.algorithm, r₃) ∧
            ∃ r₄, expect? sequence r₃ = some (s.issuer, r₄) ∧
              ∃ r₅, expect? sequence r₄ = some (s.period, r₅) ∧
                ∃ r₆, expect? sequence r₅ = some (s.subject, r₆) ∧
                  ∃ r₇, expect? sequence r₆ = some (s.key, r₇) ∧
                    Elements (part (primitive 1) s.issuerId ++ (part (primitive 2) s.subjectId ++
                      (part (constructed 3) s.extensions ++ []))) r₇ := by
    rw [SignedPart.elements, elements_part_iff (by simp [integer, constructed])]
    simp only [elements_cons_iff_expect?]
  simp only [signedPart?, Option.bind_eq_bind, Option.bind_eq_some_iff, Prod.exists, hversion,
    Option.ite_none_right_eq_some, Bool.and_eq_true, decide_eq_true_eq, keyBits?_eq_some_iff, isInteger_iff,
    isAlgorithm_iff, isName_iff, isPeriod_iff, isEnding_iff, helements]
  constructor
  · rintro ⟨version, r₁, h₁, serial, r₂, h₂, algorithm, r₃, h₃, issuer, r₄, h₄, period, r₅, h₅, subject, r₆, h₆,
      key, r₇, h₇, ⟨⟨⟨⟨⟨⟨⟨hversion, hinteger⟩, hshort⟩, halgorithm⟩, hissuer⟩, hperiod⟩, hsubject⟩,
      issuerId, subjectId, extensions, hending, hissuerId, hsubjectId, hextensions⟩, hkey⟩
    exact ⟨⟨version, serial, algorithm, issuer, period, subject, key, issuerId, subjectId, extensions⟩,
      ⟨r₁, h₁, r₂, h₂, r₃, h₃, r₄, h₄, r₅, h₅, r₆, h₆, r₇, h₇, hending⟩,
      ⟨hversion, ⟨hinteger, hshort⟩, halgorithm, hissuer, hperiod, hsubject, hkey, hissuerId, hsubjectId,
        hextensions⟩⟩
  · rintro ⟨s, ⟨r₁, h₁, r₂, h₂, r₃, h₃, r₄, h₄, r₅, h₅, r₆, h₆, r₇, h₇, hending⟩, hsound⟩
    exact ⟨_, r₁, h₁, _, r₂, h₂, _, r₃, h₃, _, r₄, h₄, _, r₅, h₅, _, r₆, h₆, _, r₇, h₇,
      ⟨⟨⟨⟨⟨⟨⟨hsound.version, hsound.serial.1⟩, hsound.serial.2⟩, hsound.algorithm⟩, hsound.issuer⟩,
        hsound.period⟩, hsound.subject⟩, _, _, _, hending, hsound.issuerId, hsound.subjectId,
        hsound.extensions⟩, hsound.key⟩

/-! ## Certificates -/

/-- Bytes are a certificate that carries the bits of a key: a signed part, an algorithm and a signature,
of which only the form matters. -/
def Carries (bytes bits : List UInt8) : Prop :=
  ∃ contents signed algorithm signature, Elements [(sequence, contents)] bytes ∧
    Elements [(sequence, signed), (sequence, algorithm), (bitString, signature)] contents ∧
    IsAlgorithm algorithm ∧ (∃ bytes, IsBits signature bytes) ∧
    ∃ s : SignedPart, Elements s.elements signed ∧ s.IsSound bits

/-- The reader finds a key exactly in the certificates that carry one, and it is the point that the bits of
the key write. -/
theorem key?_eq_some_iff {p : Curve.Point} : key? bytes = some p ↔
    ∃ bits x y, Carries bytes bits ∧ Curve.OnCurve x y ∧ Curve.WritesPoint x y bits ∧
      p = Curve.Point.ofAffine x y := by
  have hcarries (bits : List UInt8) : Carries bytes bits ↔ ∃ contents signed rest algorithm rest' signature,
      only? sequence bytes = some contents ∧ expect? sequence contents = some (signed, rest) ∧
        expect? sequence rest = some (algorithm, rest') ∧ only? bitString rest' = some signature ∧
        (isAlgorithm algorithm = true ∧ (bits? signature).isSome = true) ∧ signedPart? signed = some bits := by
    simp only [Carries, elements_singleton_iff, elements_triple_iff, isAlgorithm_iff, Option.isSome_iff_exists,
      bits?_eq_some_iff, signedPart?_eq_some_iff]
    constructor
    · rintro ⟨contents, signed, algorithm, signature, hcontents, ⟨rest, hsigned, rest', halgorithm, hsignature⟩,
        hform, hbits, hpart⟩
      exact ⟨contents, signed, rest, algorithm, rest', signature, hcontents, hsigned, halgorithm, hsignature,
        ⟨hform, hbits⟩, hpart⟩
    · rintro ⟨contents, signed, rest, algorithm, rest', signature, hcontents, hsigned, halgorithm, hsignature,
        ⟨hform, hbits⟩, hpart⟩
      exact ⟨contents, signed, algorithm, signature, hcontents, ⟨rest, hsigned, rest', halgorithm, hsignature⟩,
        hform, hbits, hpart⟩
  simp only [key?, Option.bind_eq_bind, Option.bind_eq_some_iff, Prod.exists, Option.ite_none_right_eq_some,
    Bool.and_eq_true, Curve.Point.ofBytes?_eq_some_iff, hcarries]
  constructor
  · rintro ⟨contents, hcontents, signed, rest, hsigned, algorithm, rest', halgorithm, signature, hsignature, hform,
      bits, hbits, x, y, hpoint⟩
    exact ⟨bits, x, y, ⟨contents, signed, rest, algorithm, rest', signature, hcontents, hsigned, halgorithm,
      hsignature, hform, hbits⟩, hpoint⟩
  · rintro ⟨bits, x, y, ⟨contents, signed, rest, algorithm, rest', signature, hcontents, hsigned, halgorithm,
      hsignature, hform, hbits⟩, hpoint⟩
    exact ⟨contents, hcontents, signed, rest, hsigned, algorithm, rest', halgorithm, signature, hsignature, hform,
      bits, hbits, x, y, hpoint⟩

end Certificate

end ProvenanceTrail
