import ProvenanceTrail.Text.Blank
import ProvenanceTrail.Text.Hex
/-!
# Comparing digests

A digest is compared with the one that a connector pins. Digests that are hexadecimal are compared as
bytes, others as texts, with the case of letters and the blanks around them left aside.
-/

namespace ProvenanceTrail.Digest

/-- The bytes that pairs of hexadecimal digits write. -/
def ofHex? : List Char → Option (List UInt8)
  | [] => some []
  | a :: b :: rest =>
    match Text.hexValue? a, Text.hexValue? b, ofHex? rest with
    | some x, some y, some bytes => some (UInt8.ofNat (16 * x + y) :: bytes)
    | _, _, _ => none
  | [_] => none

/-- Whether two texts are the same digest. -/
def agree (expected actual : String) : Bool :=
  let a := (Text.trim expected).toList
  let b := (Text.trim actual).toList
  match ofHex? a, ofHex? b with
  | some x, some y => x == y
  | _, _ => a.map Char.toLower == b.map Char.toLower

end ProvenanceTrail.Digest
