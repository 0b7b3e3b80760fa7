import ProvenanceTrail.Json.Basic
import ProvenanceTrail.Number.DecimalText
import ProvenanceTrail.Text.Hex
/-!
# Lexemes of JSON text

`Lexeme.scan` cuts a text into lexemes. Where the text stops being JSON the list ends with a `fault`,
so that a reader meets it only after everything in front of it.

A number without fraction and exponent that fits 64 bits is kept exactly. Any other is a binary64
value, computed from at most the leading digits that fit 64 bits by one multiplication or division by
a power of ten.

A number too large for the format and a text with half a surrogate pair have no value, but they are
written as numbers and texts are. They can be passed over where nobody asks for the value.
-/

namespace ProvenanceTrail

namespace JsonNumber

/-- The largest significand that is collected. -/
def significandLimit : Nat := Nat.pow 2 64

/-- Collects digits while the significand stays below the limit; gives the significand and the number
of digits taken. -/
def collect (significand taken : Nat) : List Char → Nat × Nat
  | [] => (significand, taken)
  | c :: cs =>
    let next := 10 * significand + Number.digitValue c
    if next < significandLimit then collect next (taken + 1) cs else (significand, taken)

/-- The value nearest to a power of ten. -/
def powerOfTen? (power : Nat) : Option Binary64 := Binary64.ofRatio? false (Nat.pow 10 power) 1

/-- The greatest power of ten that one step multiplies or divides by. -/
def stepPower : Nat := 308

/-- `x · 10 ^ power`, rounded after each step of at most 308 powers; `none` when it is too large. -/
def scaleByTen (x : Binary64) (power : Int) : Option Binary64 :=
  if power.natAbs ≤ stepPower then
    (powerOfTen? power.natAbs).bind fun p => if 0 ≤ power then x.mul? p else x.div? p
  else if x.mantissa = 0 then some x
  else if 0 ≤ power then none
  else do
    let p ← powerOfTen? stepPower
    let y ← x.div? p
    scaleByTen y (power + stepPower)
termination_by power.natAbs
decreasing_by unfold stepPower at *; omega

/-- The binary64 value of a significand and a power of ten. -/
def ofParts? (minus : Bool) (significand : Nat) (power : Int) : Option JsonNumber :=
  match Binary64.ofRatio? false significand 1 with
  | none => none
  | some x => (scaleByTen x power).map fun y => .real { y with negative := minus }

/-- The largest exponent that is read as a number. -/
def exponentLimit : Nat := Nat.pow 2 31

/-- An exponent part: the sign, the digits and the rest; `none` when no digit follows the letter. -/
def splitExponent? : List Char → Option (Option (Bool × List Char) × List Char)
  | c :: cs =>
    if c == 'e' || c == 'E' then
      let (minus, cs) := Number.splitSign cs
      match cs.takeWhile Char.isDigit with
      | [] => none
      | ds => some (some (minus, ds), cs.dropWhile Char.isDigit)
    else some (none, c :: cs)
  | [] => some (none, [])

/-- A fraction part: its digits and the rest; `none` when no digit follows the point. -/
def splitFraction? : List Char → Option (Option (List Char) × List Char)
  | '.' :: cs =>
    match cs.takeWhile Char.isDigit with
    | [] => none
    | ds => some (some ds, cs.dropWhile Char.isDigit)
  | cs => some (none, cs)

/-- The value written by a whole part, a fraction and an exponent. -/
def ofLexeme? (minus : Bool) (whole : List Char) (fraction : Option (List Char))
    (exponent : Option (Bool × List Char)) : Option JsonNumber :=
  let (head, taken) := collect 0 0 whole
  let overflowed := whole.length - taken
  match fraction, exponent with
  | none, none =>
    if overflowed = 0 then
      if !minus then some (.natural head)
      else if head = 0 then some (.real (Binary64.zero true))
      else if head ≤ Nat.pow 2 63 then some (.negative head)
      else ofParts? true head 0
    else ofParts? minus head overflowed
  | _, _ =>
    let (significand, places) := collect head 0 (fraction.getD [])
    let power : Int := (overflowed : Int) - places
    match exponent with
    | none => ofParts? minus significand power
    | some (down, ds) =>
      let e := Number.ofDigits ds
      if exponentLimit ≤ e then
        if significand != 0 && !down then none else some (.real (Binary64.zero minus))
      else ofParts? minus significand (if down then power - e else power + e)

/-- The parts of a number as it is written. -/
structure Parts where
  minus : Bool
  whole : List Char
  fraction : Option (List Char)
  exponent : Option (Bool × List Char)

/-- The value that is written. -/
def Parts.value? (p : Parts) : Option JsonNumber := ofLexeme? p.minus p.whole p.fraction p.exponent

/-- The parts of the number at the front of a text, and the rest. -/
def split? (cs : List Char) : Option (Parts × List Char) := do
  let (minus, cs) := match cs with
    | '-' :: cs => (true, cs)
    | cs => (false, cs)
  let whole := cs.takeWhile Char.isDigit
  if whole.isEmpty || (whole.head? == some '0' && whole.length != 1) then none
  else
    let (fraction, cs) ← splitFraction? (cs.dropWhile Char.isDigit)
    let (exponent, cs) ← splitExponent? cs
    pure (⟨minus, whole, fraction, exponent⟩, cs)

/-- Reads a number at the front of a text. -/
def read? (cs : List Char) : Option (JsonNumber × List Char) := do
  let (parts, rest) ← split? cs
  let n ← parts.value?
  pure (n, rest)

end JsonNumber

namespace Json

/-- A lexeme of JSON text; `fault` marks the place where the text stops being JSON. What is `skippable` is
a number or a text without a value. -/
inductive Lexeme where
  | openBrace
  | closeBrace
  | openBracket
  | closeBracket
  | colon
  | comma
  | null
  | bool (b : Bool)
  | number (n : JsonNumber)
  | string (s : String)
  | skippable
  | fault
deriving DecidableEq, Repr

namespace Lexeme

/-- White space between lexemes: blank, tab, line feed and carriage return. -/
def isSpace (c : Char) : Bool :=
  c == ' ' || c == '\t' || c == '\n' || c == '\r'

/-- The number written by four hexadecimal digits. -/
def hex4? (a b c d : Char) : Option Nat := do
  let a ← Text.hexValue? a
  let b ← Text.hexValue? b
  let c ← Text.hexValue? c
  let d ← Text.hexValue? d
  pure (((a * 16 + b) * 16 + c) * 16 + d)

/-- The character of an escape of one letter. -/
def shortEscape? (c : Char) : Option Char :=
  match c with
  | '"' => some '"'
  | '\\' => some '\\'
  | '/' => some '/'
  | 'b' => some '\x08'
  | 'f' => some '\x0c'
  | 'n' => some '\n'
  | 'r' => some '\r'
  | 't' => some '\t'
  | _ => none

/-- Reads the inside of a quoted text up to the closing quote. Control characters must be escaped,
and the two halves of a surrogate pair stand together. -/
def readQuoted? : List Char → Option (List Char × List Char)
  | [] => none
  | '"' :: cs => some ([], cs)
  | '\\' :: 'u' :: a :: b :: c :: d :: cs =>
    match hex4? a b c d with
    | none => none
    | some n =>
      if n < 0xD800 || 0xE000 ≤ n then
        (readQuoted? cs).map fun r => (Char.ofNat n :: r.1, r.2)
      else if n < 0xDC00 then
        match cs with
        | '\\' :: 'u' :: a :: b :: c :: d :: cs =>
          match hex4? a b c d with
          | none => none
          | some m =>
            if 0xDC00 ≤ m && m < 0xE000 then
              (readQuoted? cs).map fun r =>
                (Char.ofNat (0x10000 + (n - 0xD800) * 0x400 + (m - 0xDC00)) :: r.1, r.2)
            else none
        | _ => none
      else none
  | '\\' :: c :: cs =>
    match shortEscape? c with
    | none => none
    | some e => (readQuoted? cs).map fun r => (e :: r.1, r.2)
  | c :: cs =>
    if c.toNat < 0x20 || c = '\\' then none
    else (readQuoted? cs).map fun r => (c :: r.1, r.2)

/-- Passes over the inside of a quoted text. Halves of surrogate pairs may stand anywhere. -/
def skipQuoted? : List Char → Option (List Char)
  | [] => none
  | '"' :: cs => some cs
  | '\\' :: 'u' :: a :: b :: c :: d :: cs => (hex4? a b c d).bind fun _ => skipQuoted? cs
  | '\\' :: c :: cs => (shortEscape? c).bind fun _ => skipQuoted? cs
  | c :: cs => if c.toNat < 0x20 || c = '\\' then none else skipQuoted? cs

/-- The lexeme of a text in quotes, and the rest. -/
def quoted? (cs : List Char) : Option (Lexeme × List Char) :=
  match readQuoted? cs with
  | some r => some (.string (String.ofList r.1), r.2)
  | none => (skipQuoted? cs).map fun rest => (.skippable, rest)

/-- The lexeme of a number, and the rest. -/
def numeral? (cs : List Char) : Option (Lexeme × List Char) :=
  match JsonNumber.read? cs with
  | some r => some (.number r.1, r.2)
  | none => (JsonNumber.split? cs).map fun r => (.skippable, r.2)

/-- What remains after a word at the front of a text. -/
def afterWord? : List Char → List Char → Option (List Char)
  | [], cs => some cs
  | w :: word, c :: cs => if w = c then afterWord? word cs else none
  | _ :: _, [] => none

/-- The first lexeme of a text that starts with a non-blank, and the rest. -/
def first? : List Char → Option (Lexeme × List Char)
  | [] => none
  | c :: cs =>
    match c with
    | '{' => some (.openBrace, cs)
    | '}' => some (.closeBrace, cs)
    | '[' => some (.openBracket, cs)
    | ']' => some (.closeBracket, cs)
    | ':' => some (.colon, cs)
    | ',' => some (.comma, cs)
    | 'n' => (afterWord? ['u', 'l', 'l'] cs).map fun rest => (.null, rest)
    | 't' => (afterWord? ['r', 'u', 'e'] cs).map fun rest => (.bool true, rest)
    | 'f' => (afterWord? ['a', 'l', 's', 'e'] cs).map fun rest => (.bool false, rest)
    | '"' => quoted? cs
    | _ => numeral? (c :: cs)

/-- The lexemes of a text, at most `fuel` of them. -/
def scanUpTo : Nat → List Char → List Lexeme
  | 0, _ => []
  | fuel + 1, cs =>
    match cs.dropWhile isSpace with
    | [] => []
    | cs =>
      match first? cs with
      | none => [.fault]
      | some (lexeme, rest) => lexeme :: scanUpTo fuel rest

/-- The lexemes of a text; each takes at least one character. -/
def scan (cs : List Char) : List Lexeme := scanUpTo (cs.length + 1) cs

end Lexeme

end Json

end ProvenanceTrail
