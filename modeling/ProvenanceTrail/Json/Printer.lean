import ProvenanceTrail.Json.Basic
import ProvenanceTrail.Number.Shortest
import ProvenanceTrail.Text.Hex
/-!
# Writing JSON

Values are written without white space. `Json.canonical` writes the normalized value, so that two
values have the same canonical text exactly when they are the same up to the order of members.
-/

namespace ProvenanceTrail

namespace JsonNumber

/-- Digits, most significant first, with zeros in front up to `width`. -/
def padded (width n : Nat) : List Char :=
  let ds := Nat.toDigits 10 n
  List.replicate (width - ds.length) '0' ++ ds

/-- Where positional notation ends: the decimal point may stand at most this many places right of
the first digit's place. -/
def positionalAbove : Int := 16

/-- Where positional notation starts: values below 10 ^ -5 take an exponent. -/
def positionalFrom : Int := -4

/-- The fewest digits that read back: positional with `.0` on whole numbers from 10 ^ -5 to below
10 ^ 16, otherwise with a signed exponent. -/
def renderReal (x : Binary64) : List Char :=
  let d := x.shortest
  let ds := Nat.toDigits 10 d.digits
  let point : Int := ds.length + d.power
  let body :=
    if d.digits = 0 then ['0', '.', '0']
    else if positionalFrom ≤ point && point ≤ positionalAbove then
      if point ≤ 0 then '0' :: '.' :: (List.replicate (-point).toNat '0' ++ ds)
      else if ds.length ≤ point.toNat then
        ds ++ List.replicate (point.toNat - ds.length) '0' ++ ['.', '0']
      else ds.take point.toNat ++ '.' :: ds.drop point.toNat
    else
      let e := point - 1
      let mantissa := match ds with
        | [] => []
        | [c] => [c]
        | c :: rest => c :: '.' :: rest
      mantissa ++ ['e', if e < 0 then '-' else '+'] ++ Nat.toDigits 10 e.natAbs
  if x.negative then '-' :: body else body

/-- The text of a number. -/
def render : JsonNumber → List Char
  | .natural n => Nat.toDigits 10 n
  | .negative n => '-' :: Nat.toDigits 10 n
  | .real x => renderReal x

end JsonNumber

namespace Json

/-- A character inside a quoted text: the quote, the backslash and the characters below U+0020 are
escaped, with the short form where there is one. -/
def escape (c : Char) : List Char :=
  if c = '"' then ['\\', '"']
  else if c = '\\' then ['\\', '\\']
  else if c = '\x08' then ['\\', 'b']
  else if c = '\t' then ['\\', 't']
  else if c = '\n' then ['\\', 'n']
  else if c = '\x0c' then ['\\', 'f']
  else if c = '\r' then ['\\', 'r']
  else if c.toNat < 0x20 then
    ['\\', 'u', '0', '0', Text.hexDigit 'a' (c.toNat / 16), Text.hexDigit 'a' (c.toNat % 16)]
  else [c]

/-- A text in quotes. -/
def quote (s : String) : List Char :=
  '"' :: (s.toList.flatMap escape ++ ['"'])

mutual
/-- The compact text of a value, members in their own order. -/
def render : Json → List Char
  | .null => ['n', 'u', 'l', 'l']
  | .bool true => ['t', 'r', 'u', 'e']
  | .bool false => ['f', 'a', 'l', 's', 'e']
  | .number n => n.render
  | .string s => quote s
  | .array [] => ['[', ']']
  | .array (v :: rest) => '[' :: (render v ++ renderItems rest)
  | .object [] => ['{', '}']
  | .object ((k, v) :: rest) => '{' :: (quote k ++ ':' :: (render v ++ renderMembers rest))
termination_by structural v => v

/-- The items after the first, up to the closing bracket. -/
def renderItems : List Json → List Char
  | [] => [']']
  | v :: rest => ',' :: (render v ++ renderItems rest)
termination_by structural vs => vs

/-- The members after the first, up to the closing brace. -/
def renderMembers : List (String × Json) → List Char
  | [] => ['}']
  | (k, v) :: rest => ',' :: (quote k ++ ':' :: (render v ++ renderMembers rest))
termination_by structural vs => vs
end

/-- The canonical text: keys in ascending order, no white space. -/
def canonical (v : Json) : String :=
  String.ofList v.normalize.render

end Json

end ProvenanceTrail
