/-!
# Sets of characters

A set of characters is a list of ranges of code points. The canonical form has its ranges ascending,
with a gap between any two; complements are taken of canonical sets. The named classes hold ASCII
characters only.
-/

namespace ProvenanceTrail

/-- Ranges of code points, both ends included. -/
abbrev CharSet := List (Nat × Nat)

namespace CharSet

/-- Whether a character is in the set. -/
def contains (s : CharSet) (c : Char) : Bool :=
  s.any fun r => r.1 ≤ c.toNat && c.toNat ≤ r.2

/-- The largest code point. -/
def last : Nat := 0x10FFFF

/-- The code point of a character after another; surrogates are none. -/
def next (n : Nat) : Nat := if n = 0xD7FF then 0xE000 else n + 1

/-- The code point of a character before another. -/
def previous (n : Nat) : Nat := if n = 0xE000 then 0xD7FF else n - 1

/-- Joins neighbours that overlap or touch, in a list sorted by first ends. -/
def join : CharSet → CharSet
  | [] => []
  | r :: rest =>
    match join rest with
    | [] => [r]
    | s :: others =>
      if s.1 ≤ r.2 + 1 then (r.1, max r.2 s.2) :: others else r :: s :: others

/-- The canonical form. -/
def canonical (s : CharSet) : CharSet :=
  join (s.mergeSort fun a b => a.1 < b.1 || (a.1 == b.1 && a.2 ≤ b.2))

/-- The ranges between the ranges of a canonical set, from a lower end on. -/
def gapsFrom (lower : Nat) : CharSet → CharSet
  | [] => if lower ≤ last then [(lower, last)] else []
  | r :: rest =>
    let upper := previous r.1
    if lower < r.1 then (lower, upper) :: gapsFrom (next r.2) rest else gapsFrom (next r.2) rest

/-- The characters outside a canonical set. -/
def complement (s : CharSet) : CharSet := gapsFrom 0 s

/-- The range of the same ASCII letters in the other case. A range that holds letters of both cases
gives the capitals of its small letters. -/
def foldRange? (r : Nat × Nat) : Option (Nat × Nat) :=
  if r.1 ≤ 0x7A && 0x61 ≤ r.2 then some (max r.1 0x61 - 32, min r.2 0x7A - 32)
  else if r.1 ≤ 0x5A && 0x41 ≤ r.2 then some (max r.1 0x41 + 32, min r.2 0x5A + 32)
  else none

/-- The set together with its ASCII letters in the other case. -/
def fold (s : CharSet) : CharSet := canonical (s ++ s.filterMap foldRange?)

/-- The range of a single character. -/
def single (c : Char) : Nat × Nat := (c.toNat, c.toNat)

/-- The digits. -/
def digit : CharSet := [(0x30, 0x39)]

/-- White space. -/
def space : CharSet := [(0x09, 0x0D), (0x20, 0x20)]

/-- Letters, digits and the underscore. -/
def word : CharSet := [(0x30, 0x39), (0x41, 0x5A), (0x5F, 0x5F), (0x61, 0x7A)]

/-- The classes that have a name between `[:` and `:]`. -/
def named : List (String × CharSet) :=
  [("alnum", [(0x30, 0x39), (0x41, 0x5A), (0x61, 0x7A)]),
    ("alpha", [(0x41, 0x5A), (0x61, 0x7A)]),
    ("ascii", [(0x00, 0x7F)]),
    ("blank", [(0x09, 0x09), (0x20, 0x20)]),
    ("cntrl", [(0x00, 0x1F), (0x7F, 0x7F)]),
    ("digit", digit),
    ("graph", [(0x21, 0x7E)]),
    ("lower", [(0x61, 0x7A)]),
    ("print", [(0x20, 0x7E)]),
    ("punct", [(0x21, 0x2F), (0x3A, 0x40), (0x5B, 0x60), (0x7B, 0x7E)]),
    ("space", space),
    ("upper", [(0x41, 0x5A)]),
    ("word", word),
    ("xdigit", [(0x30, 0x39), (0x41, 0x46), (0x61, 0x66)])]

end CharSet

end ProvenanceTrail
