/-!
# Numbers as bytes

Natural numbers as bytes, the most significant byte first.
-/

namespace ProvenanceTrail.Digest

/-- The number that bytes write, the most significant byte first. -/
def toNat (bytes : List UInt8) : Nat :=
  bytes.foldl (fun n b => 256 * n + b.toNat) 0

/-- The lowest `width` bytes of a number, the most significant first. -/
def ofNat : Nat → Nat → List UInt8
  | 0, _ => []
  | width + 1, n => ofNat width (n / 256) ++ [UInt8.ofNat n]

/-- The fewest bytes that write a number; zero takes one byte. -/
def shortest (n : Nat) : List UInt8 := ofNat (max 1 ((n.log2 + 8) / 8)) n

end ProvenanceTrail.Digest
