/-!
# Letters of host names

Host names are compared in small letters of one width. A capital letter is replaced by its small letter, a letter
of full width by the plain one, a full stop of another script by a point, and marks that are not seen are left out.
The table covers most Latin, Greek, Cyrillic and Armenian letters; all other characters stand for themselves.
-/

namespace ProvenanceTrail.Host

/-- What the characters of a range are replaced by. -/
inductive Folding where
  /-- the character that many places further -/
  | onward (places : Nat)
  /-- the character that many places before -/
  | back (places : Nat)
  /-- capital and small letters in turn, a capital first -/
  | paired
  | spelled (cs : List Char)
deriving DecidableEq, Repr

/-- A range of characters, by their numbers, that are replaced in one way. -/
structure FoldingRange where
  first : Nat
  last : Nat
  folding : Folding
deriving DecidableEq, Repr

namespace FoldingRange

/-- Whether a character is in a range. -/
def holds (r : FoldingRange) (c : Char) : Bool := r.first ≤ c.toNat && c.toNat ≤ r.last

/-- What a character of a range is replaced by. -/
def apply (r : FoldingRange) (c : Char) : List Char :=
  match r.folding with
  | .onward places => [Char.ofNat (c.toNat + places)]
  | .back places => [Char.ofNat (c.toNat - places)]
  | .paired => [if (c.toNat - r.first) % 2 = 0 then Char.ofNat (c.toNat + 1) else c]
  | .spelled cs => cs

end FoldingRange

/-- The ranges of the characters that are replaced. -/
def foldingRanges : List FoldingRange :=
  [⟨0x41, 0x5A, .onward 32⟩, ⟨0xAA, 0xAA, .spelled ['a']⟩, ⟨0xAD, 0xAD, .spelled []⟩,
    ⟨0xB2, 0xB2, .spelled ['2']⟩, ⟨0xB3, 0xB3, .spelled ['3']⟩, ⟨0xB5, 0xB5, .spelled ['μ']⟩,
    ⟨0xB9, 0xB9, .spelled ['1']⟩, ⟨0xBA, 0xBA, .spelled ['o']⟩, ⟨0xC0, 0xD6, .onward 32⟩,
    ⟨0xD8, 0xDE, .onward 32⟩,
    -- Latin letters beyond the first
    ⟨0x100, 0x12F, .paired⟩, ⟨0x130, 0x130, .spelled ['i', '\u0307']⟩, ⟨0x132, 0x133, .spelled ['i', 'j']⟩,
    ⟨0x134, 0x137, .paired⟩, ⟨0x139, 0x13E, .paired⟩, ⟨0x13F, 0x140, .spelled ['l', '·']⟩,
    ⟨0x141, 0x148, .paired⟩, ⟨0x149, 0x149, .spelled ['ʼ', 'n']⟩, ⟨0x14A, 0x177, .paired⟩,
    ⟨0x178, 0x178, .spelled ['ÿ']⟩, ⟨0x179, 0x17E, .paired⟩, ⟨0x17F, 0x17F, .spelled ['s']⟩,
    ⟨0x1CD, 0x1DC, .paired⟩, ⟨0x1DE, 0x1EF, .paired⟩, ⟨0x1F8, 0x21F, .paired⟩, ⟨0x222, 0x233, .paired⟩,
    -- Greek, Cyrillic and Armenian letters
    ⟨0x386, 0x386, .onward 38⟩, ⟨0x388, 0x38A, .onward 37⟩, ⟨0x38C, 0x38C, .onward 64⟩,
    ⟨0x38E, 0x38F, .onward 63⟩, ⟨0x391, 0x3A1, .onward 32⟩, ⟨0x3A3, 0x3AB, .onward 32⟩,
    ⟨0x400, 0x40F, .onward 80⟩, ⟨0x410, 0x42F, .onward 32⟩, ⟨0x460, 0x481, .paired⟩,
    ⟨0x48A, 0x4BF, .paired⟩, ⟨0x4C0, 0x4C0, .onward 15⟩, ⟨0x4C1, 0x4CE, .paired⟩, ⟨0x4D0, 0x52F, .paired⟩,
    ⟨0x531, 0x556, .onward 48⟩, ⟨0x1E00, 0x1E95, .paired⟩, ⟨0x1E9E, 0x1E9E, .spelled ['ß']⟩,
    ⟨0x1EA0, 0x1EFF, .paired⟩,
    -- marks that are not seen, signs that are letters, and full stops
    ⟨0x200B, 0x200B, .spelled []⟩, ⟨0x2060, 0x2060, .spelled []⟩, ⟨0x2126, 0x2126, .spelled ['ω']⟩,
    ⟨0x212A, 0x212A, .spelled ['k']⟩, ⟨0x212B, 0x212B, .spelled ['å']⟩, ⟨0x3002, 0x3002, .spelled ['.']⟩,
    ⟨0xFE00, 0xFE0F, .spelled []⟩, ⟨0xFEFF, 0xFEFF, .spelled []⟩,
    -- characters of full width
    ⟨0xFF01, 0xFF20, .back 0xFEE0⟩, ⟨0xFF21, 0xFF3A, .back 0xFEC0⟩, ⟨0xFF3B, 0xFF5E, .back 0xFEE0⟩,
    ⟨0xFF61, 0xFF61, .spelled ['.']⟩]

/-- What a character is replaced by. -/
def fold (c : Char) : List Char :=
  match foldingRanges.find? (·.holds c) with
  | some r => r.apply c
  | none => [c]

end ProvenanceTrail.Host
