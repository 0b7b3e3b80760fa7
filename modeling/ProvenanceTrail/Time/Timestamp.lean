import ProvenanceTrail.Text.Blank
import ProvenanceTrail.Time.Calendar
import ProvenanceTrail.Number.DecimalText
/-!
# Timestamps

A date and time of day with an offset from universal time in whole minutes. Timestamps compare as
instants; a leap second is the second 59 with a fraction of one second or more, and comes before the
second that follows it.

Two grammars read timestamps. Documents use the lenient one (`Timestamp.ofText?`): parts of one or two
digits, blanks between them, three spellings of universal time. Conditions use the strict one
(`Timestamp.ofStrictText?`). Both are written in one form, `Timestamp.toText`.
-/

namespace ProvenanceTrail

/-- A date and time of day at an offset, in minutes, from universal time. -/
structure Timestamp where
  year : Int
  month : Nat
  day : Nat
  hour : Nat
  minute : Nat
  second : Nat
  nanosecond : Nat
  offset : Int
deriving DecidableEq, Repr

namespace Timestamp

/-- The first year that can be written. -/
def minYear : Int := -262143

/-- The last year that can be written. -/
def maxYear : Int := 262142

/-- Minutes of universal time from 1970-01-01 to the start of the timestamp's minute. -/
def universalMinute (t : Timestamp) : Int :=
  Calendar.dayNumber t.year t.month t.day * 1440 + (t.hour * 60 + t.minute : Nat) - t.offset

/-- The instant: the minute of universal time, and the second and nanosecond within it. -/
def instant (t : Timestamp) : Int × Nat × Nat :=
  (t.universalMinute, t.second, t.nanosecond)

/-- Whether both denote the same instant. -/
def sameInstant (a b : Timestamp) : Bool := a.instant == b.instant

/-- Whether the first instant lies strictly before the second. -/
def isBefore (a b : Timestamp) : Bool :=
  a.universalMinute < b.universalMinute ||
    (a.universalMinute == b.universalMinute &&
      (a.second < b.second || (a.second == b.second && a.nanosecond < b.nanosecond)))

/-- Whether an instant has a date in universal time between the first and the last year. -/
def inRange (t : Timestamp) : Bool :=
  Calendar.dayNumber minYear 1 1 * 1440 ≤ t.universalMinute &&
    t.universalMinute < (Calendar.dayNumber maxYear 12 31 + 1) * 1440

/-- Puts the parts together. The second 60 is a leap second, kept as 59 and one second more. -/
def ofParts? (year : Int) (month day hour minute second nanosecond : Nat) (offset : Int) :
    Option Timestamp :=
  let (second, nanosecond) :=
    if second = 60 then (59, nanosecond + 1000000000) else (second, nanosecond)
  let t : Timestamp := ⟨year, month, day, hour, minute, second, nanosecond, offset⟩
  if minYear ≤ year && year ≤ maxYear && Calendar.isDate year month day && hour < 24 && minute < 60
      && second < 60 && offset.natAbs < 1440 && t.inRange
  then some t else none

/-- Splits off at least `least` and at most `most` decimal digits. -/
def digits? (least most : Nat) (cs : List Char) : Option (List Char × List Char) :=
  let ds := (cs.take most).takeWhile Char.isDigit
  if ds.length < least then none else some (ds, cs.drop ds.length)

/-- Splits off a number of at least `least` and at most `most` decimal digits. -/
def number? (least most : Nat) (cs : List Char) : Option (Nat × List Char) :=
  (digits? least most cs).map fun r => (Number.ofDigits r.1, r.2)

/-- Splits off the character `c`. -/
def char? (c : Char) : List Char → Option (List Char)
  | [] => none
  | d :: cs => if c = d then some cs else none

/-- An optional fraction: a point and at least one digit, of which nine count. -/
def fraction? : List Char → Option (Nat × List Char)
  | '.' :: cs => do
    let (ds, rest) ← digits? 1 9 cs
    pure (Number.ofDigits ds * Nat.pow 10 (9 - ds.length), rest.dropWhile Char.isDigit)
  | cs => some (0, cs)

/-- An offset: `Z`, or a sign, two digits for hours, a separator and two for minutes. The minus may
also be the typographic one. -/
def offset? (separator : List Char → Option (List Char)) (cs : List Char) :
    Option (Int × List Char) :=
  match cs with
  | [] => none
  | c :: rest =>
    if c = 'Z' || c = 'z' then some (0, rest)
    else if c = '+' || c = '-' || c = '\u2212' then do
      let (hours, rest) ← number? 2 2 rest
      let rest ← separator rest
      let (minutes, rest) ← number? 2 2 rest
      if 60 ≤ minutes then none
      else
        let size : Int := (hours * 60 + minutes : Nat)
        pure (if c = '+' then size else -size, rest)
    else none

/-- A year of the lenient grammar: up to four digits, or a sign and any number of digits. -/
def lenientYear? (cs : List Char) : Option (Int × List Char) :=
  match cs with
  | '-' :: rest => (number? 1 rest.length rest).map fun r => (-(r.1 : Int), r.2)
  | '+' :: rest => (number? 1 rest.length rest).map fun r => ((r.1 : Int), r.2)
  | _ => (number? 1 4 cs).map fun r => ((r.1 : Int), r.2)

/-- A part of one or two digits, after any blanks. -/
def lenientPart? (cs : List Char) : Option (Nat × List Char) :=
  number? 1 2 (Text.trimStart cs)

/-- A separator, after any blanks. -/
def lenientSeparator? (c : Char) (cs : List Char) : Option (List Char) :=
  char? c (Text.trimStart cs)

/-- An offset of the lenient grammar, which also knows `UTC` in any case. -/
def lenientOffset? (cs : List Char) : Option (Int × List Char) :=
  if (cs.take 3).map Char.toLower == ['u', 't', 'c'] then some (0, cs.drop 3)
  else offset? (fun rest => some (rest.dropWhile fun c => c == ':' || Text.isBlank c)) cs

/-- What stands between date and time of day. -/
def dateEnd? : List Char → Option (List Char)
  | [] => none
  | c :: cs => if c = 'T' || c = 't' || c = ' ' then some cs else none

/-- Reads a timestamp of a document. -/
def ofText? (s : String) : Option Timestamp := do
  let (year, cs) ← lenientYear? (Text.trimStart s.toList)
  let cs ← lenientSeparator? '-' cs
  let (month, cs) ← lenientPart? cs
  let cs ← lenientSeparator? '-' cs
  let (day, cs) ← lenientPart? cs
  let cs ← dateEnd? cs
  let (hour, cs) ← lenientPart? cs
  let cs ← lenientSeparator? ':' cs
  let (minute, cs) ← lenientPart? cs
  let cs ← lenientSeparator? ':' cs
  let (second, cs) ← lenientPart? cs
  let (nanosecond, cs) ← fraction? cs
  let (offset, cs) ← lenientOffset? (Text.trimStart cs)
  if !(Text.trimStart cs).isEmpty then none
  else ofParts? year month day hour minute second nanosecond offset

/-- Reads a timestamp of a condition: every part has its full width and no blanks are allowed. -/
def ofStrictText? (s : String) : Option Timestamp := do
  let (year, cs) ← number? 4 4 s.toList
  let cs ← char? '-' cs
  let (month, cs) ← number? 2 2 cs
  let cs ← char? '-' cs
  let (day, cs) ← number? 2 2 cs
  let cs ← dateEnd? cs
  let (hour, cs) ← number? 2 2 cs
  let cs ← char? ':' cs
  let (minute, cs) ← number? 2 2 cs
  let cs ← char? ':' cs
  let (second, cs) ← number? 2 2 cs
  let (nanosecond, cs) ← fraction? cs
  let (offset, cs) ← offset? (char? ':') cs
  if !cs.isEmpty then none
  else ofParts? year month day hour minute second nanosecond offset

/-- Digits of a number with zeros in front up to `width`. -/
def padded (width n : Nat) : List Char :=
  let ds := Nat.toDigits 10 n
  List.replicate (width - ds.length) '0' ++ ds

/-- A year: four digits from 0 to 9999, otherwise a sign and at least four. -/
def yearText (year : Int) : List Char :=
  if 0 ≤ year && year ≤ 9999 then padded 4 year.toNat
  else (if year < 0 then '-' else '+') :: padded 4 year.natAbs

/-- A fraction with the fewest of 0, 3, 6 or 9 digits that is exact. -/
def fractionText (nanosecond : Nat) : List Char :=
  if nanosecond = 0 then []
  else if nanosecond % 1000000 = 0 then '.' :: padded 3 (nanosecond / 1000000)
  else if nanosecond % 1000 = 0 then '.' :: padded 6 (nanosecond / 1000)
  else '.' :: padded 9 nanosecond

/-- An offset: `Z` for none, otherwise sign, hours and minutes. -/
def offsetText (offset : Int) : List Char :=
  if offset = 0 then ['Z']
  else (if offset < 0 then '-' else '+') ::
    (padded 2 (offset.natAbs / 60) ++ ':' :: padded 2 (offset.natAbs % 60))

/-- The text of a timestamp; a leap second is written as the second 60. -/
def toText (t : Timestamp) : String :=
  let (second, nanosecond) :=
    if 1000000000 ≤ t.nanosecond then (t.second + 1, t.nanosecond - 1000000000)
    else (t.second, t.nanosecond)
  String.ofList <|
    yearText t.year ++ '-' :: (padded 2 t.month ++ '-' :: (padded 2 t.day ++ 'T' ::
      (padded 2 t.hour ++ ':' :: (padded 2 t.minute ++ ':' :: (padded 2 second ++
        (fractionText nanosecond ++ offsetText t.offset))))))

end Timestamp

end ProvenanceTrail
