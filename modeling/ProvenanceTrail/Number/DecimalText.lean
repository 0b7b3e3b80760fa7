import ProvenanceTrail.Number.Binary64
import ProvenanceTrail.Text.Blank
/-!
# Reading decimal numbers

The grammar is: an optional sign; digits with at most one point among, before or after them; and an
optional exponent of `e` or `E`, an optional sign and at least one digit. The value is the nearest
binary64 value. A text whose value has no finite nearest value is refused.
-/

namespace ProvenanceTrail.Number

/-- The value of a decimal digit. -/
def digitValue (c : Char) : Nat := c.toNat - '0'.toNat

/-- The natural number that a list of decimal digits writes. -/
def ofDigits (cs : List Char) : Nat :=
  cs.foldl (fun n c => 10 * n + digitValue c) 0

/-- An optional sign: whether it is a minus, and what follows it. -/
def splitSign : List Char → Bool × List Char
  | '-' :: cs => (true, cs)
  | '+' :: cs => (false, cs)
  | cs => (false, cs)

/-- The power of ten that an exponent part adds; nothing at all adds zero. -/
def exponentPart? : List Char → Option Int
  | [] => some 0
  | c :: cs =>
    if c == 'e' || c == 'E' then
      let (negative, ds) := splitSign cs
      if ds.isEmpty || !ds.all Char.isDigit then none
      else some (if negative then -(ofDigits ds : Int) else ofDigits ds)
    else none

/-- Splits off a fraction: the digits after a point, if there is one, and what follows them. -/
def splitFraction : List Char → List Char × List Char
  | '.' :: cs => (cs.takeWhile Char.isDigit, cs.dropWhile Char.isDigit)
  | cs => ([], cs)

/-- Reads a whole text as a decimal number. -/
def readDecimal? (s : String) : Option Binary64 := do
  let (negative, cs) := splitSign s.toList
  let whole := cs.takeWhile Char.isDigit
  let (fraction, rest) := splitFraction (cs.dropWhile Char.isDigit)
  if whole.isEmpty && fraction.isEmpty then none
  else
    let power ← exponentPart? rest
    Binary64.ofDecimal? negative (ofDigits (whole ++ fraction)) (power - fraction.length)

/-- Reads an unsigned 64-bit number written in decimal digits after an optional plus. -/
def readUnsigned64? (s : String) : Option Nat :=
  let ds := match s.toList with
    | '+' :: ds => ds
    | ds => ds
  if ds.isEmpty || !ds.all Char.isDigit then none
  else
    let n := ofDigits ds
    if n < Nat.pow 2 64 then some n else none

end ProvenanceTrail.Number
