import Mathlib.Data.List.Forall2
import ProvenanceTrail.Text.Hex

/-!
# Letters and digits

Texts are compared up to the case of their ASCII letters, which is the same as comparing them in small
letters (`Text.sameUpToCase_iff`). A hexadecimal digit is read in either case, and every value below 16 is
read back from its digit.
-/

namespace ProvenanceTrail.Text

/-! ## Equal up to the case of letters -/

/-- Two characters are equal up to case: one is a capital ASCII letter and the other the small one, or they
are the same. -/
def SameLetter (c d : Char) : Prop :=
  c = d ∨ (c.isUpper ∧ d.toNat = c.toNat + 32) ∨ (d.isUpper ∧ c.toNat = d.toNat + 32)

/-- Two texts are equal up to the case of ASCII letters. -/
def SameUpToCase (s t : String) : Prop := List.Forall₂ SameLetter s.toList t.toList

/-- The capital letters are those from A to Z. -/
theorem isUpper_iff_val {c : Char} : c.isUpper ↔ c.val ≥ 'A'.val ∧ c.val ≤ 'Z'.val :=
  decide_eq_true_iff

/-- The capital letters are the code points from 65 to 90. -/
theorem isUpper_iff {c : Char} : c.isUpper ↔ 65 ≤ c.toNat ∧ c.toNat ≤ 90 := by
  rw [isUpper_iff_val, ge_iff_le, UInt32.le_iff_toNat_le, UInt32.le_iff_toNat_le]
  exact Iff.rfl

/-- A capital letter stands 32 code points before the small one. -/
theorem toNat_toLower (c : Char) : c.toLower.toNat = if c.isUpper then c.toNat + 32 else c.toNat := by
  split_ifs with hc
  · have hlast := (isUpper_iff.1 hc).2
    rw [show c.toLower = _ from dif_pos (isUpper_iff_val.1 hc), ← Char.toNat_val, UInt32.toNat_add]
    exact Nat.mod_eq_of_lt (show c.toNat + 32 < 2 ^ 32 by omega)
  · rw [show c.toLower = c from dif_neg (mt isUpper_iff_val.2 hc)]

/-- Characters are equal up to case just if their small letters are the same. -/
theorem sameLetter_iff {c d : Char} : SameLetter c d ↔ c.toLower = d.toLower := by
  rw [SameLetter, ← Char.toNat_inj, ← Char.toNat_inj, toNat_toLower, toNat_toLower]
  simp only [isUpper_iff]
  split_ifs <;> omega

/-- Texts are equal up to case just if they are the same in small letters. -/
theorem sameUpToCase_iff {s t : String} :
    SameUpToCase s t ↔ s.toList.map Char.toLower = t.toList.map Char.toLower := by
  have hletters : SameLetter = fun c d => c.toLower = d.toLower :=
    funext₂ fun _ _ => propext sameLetter_iff
  rw [SameUpToCase, hletters, ← List.forall₂_eq_eq_eq, List.forall₂_map_left_iff,
    List.forall₂_map_right_iff]

/-! ## Hexadecimal digits -/

/-- The digits of either case with their values. -/
theorem hexValue?_eq_some_iff {c : Char} {n : Nat} :
    hexValue? c = some n ↔
      (48 ≤ c.toNat ∧ c.toNat ≤ 57) ∧ n + 48 = c.toNat ∨
      (97 ≤ c.toNat ∧ c.toNat ≤ 102) ∧ n + 87 = c.toNat ∨
      (65 ≤ c.toNat ∧ c.toNat ≤ 70) ∧ n + 55 = c.toNat := by
  simp only [hexValue?, Char.le_def, UInt32.le_iff_toNat_le, Char.toNat_val, Char.reduceToNat]
  split_ifs <;> simp <;> omega

/-- The value of a digit does not depend on its case. -/
theorem hexValue?_toLower (c : Char) : hexValue? c.toLower = hexValue? c := by
  ext n
  rw [hexValue?_eq_some_iff, hexValue?_eq_some_iff, toNat_toLower]
  simp only [isUpper_iff]
  split_ifs <;> omega

/-- Digits have values below 16. -/
theorem lt_of_hexValue? {c : Char} {n : Nat} (h : hexValue? c = some n) : n < 16 := by
  rw [hexValue?_eq_some_iff] at h
  omega

/-- Digits with the same value are equal up to case. -/
theorem sameLetter_of_hexValue? {c d : Char} {n : Nat} (hc : hexValue? c = some n)
    (hd : hexValue? d = some n) : SameLetter c d := by
  rw [hexValue?_eq_some_iff] at hc hd
  rw [SameLetter, ← Char.toNat_inj, isUpper_iff, isUpper_iff]
  omega

/-- A digit that is written in either case is read back. -/
theorem hexValue?_hexDigit {ten : Char} (hten : ten ∈ ['a', 'A']) {n : Nat} (h : n < 16) :
    hexValue? (hexDigit ten n) = some n := by
  have small : ∀ n < 16, hexValue? (hexDigit 'a' n) = some n := by decide
  have capital : ∀ n < 16, hexValue? (hexDigit 'A' n) = some n := by decide
  obtain rfl | rfl : ten = 'a' ∨ ten = 'A' := by simpa using hten
  · exact small n h
  · exact capital n h

end ProvenanceTrail.Text
