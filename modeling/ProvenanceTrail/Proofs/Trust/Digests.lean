import ProvenanceTrail.Proofs.Text.Letters
import ProvenanceTrail.Proofs.Text.Trimming
import ProvenanceTrail.Trust.Digests

/-!
# Comparing digests

Two texts are compared as bytes when both are hexadecimal, and as texts otherwise. The two ways agree: a
hexadecimal digit has the same value as a capital and as a small letter and no other digit has it, so that
hexadecimal texts write the same bytes exactly if they are equal up to the case of letters
(`Digest.ofHex?_eq_iff`). So digests are the same when the trimmed texts are equal up to case, which is an
equivalence.
-/

namespace ProvenanceTrail.Digest

open Text (SameLetter SameUpToCase hexValue? lt_of_hexValue? sameLetter_of_hexValue? hexValue?_toLower
  sameUpToCase_iff)

/-- Pairs of digits write bytes: of each byte, the one digit is the upper half and the other the lower. -/
inductive Writes : List Char → List UInt8 → Prop
  | nil : Writes [] []
  | cons {a b : Char} {byte : UInt8} {cs : List Char} {bytes : List UInt8} :
      hexValue? a = some (byte.toNat / 16) → hexValue? b = some (byte.toNat % 16) → Writes cs bytes →
        Writes (a :: b :: cs) (byte :: bytes)

/-- What is read as hexadecimal writes the bytes it is read as. -/
theorem writes_of_ofHex? {cs : List Char} {bytes : List UInt8} (h : ofHex? cs = some bytes) :
    Writes cs bytes := by
  fun_induction ofHex? cs generalizing bytes with
  | case1 =>
    obtain rfl := Option.some.inj h
    exact .nil
  | case2 a b cs x y rest hcs hy hx ih =>
    obtain rfl := Option.some.inj h
    have hxlt := lt_of_hexValue? hx
    have hylt := lt_of_hexValue? hy
    have hbyte : (UInt8.ofNat (16 * x + y)).toNat = 16 * x + y := by
      rw [UInt8.toNat_ofNat', Nat.mod_eq_of_lt (by omega)]
    refine .cons ?_ ?_ (ih hcs)
    · rw [hx, hbyte]
      congr 1
      omega
    · rw [hy, hbyte]
      congr 1
      omega
  | case3 | case4 => cases h

/-- Texts that write the same bytes are equal up to case. -/
theorem Writes.sameLetters {cs ds : List Char} {bytes : List UInt8} (h : Writes cs bytes)
    (h' : Writes ds bytes) : List.Forall₂ SameLetter cs ds := by
  induction h generalizing ds with
  | nil =>
    cases h'
    exact .nil
  | cons ha hb _ ih =>
    cases h' with
    | cons ha' hb' hds =>
      exact .cons (sameLetter_of_hexValue? ha ha') (.cons (sameLetter_of_hexValue? hb hb') (ih hds))

/-- Decoding does not tell capital from small letters. -/
theorem ofHex?_map_toLower (cs : List Char) : ofHex? (cs.map Char.toLower) = ofHex? cs := by
  fun_induction ofHex? cs with
  | case1 | case4 => rfl
  | case2 _ _ _ _ _ _ hcs hy hx ih =>
    simp only [List.map_cons, ofHex?, hexValue?_toLower, hx, hy, ih, hcs]
  | case3 _ _ _ _ ih => simp only [List.map_cons, ofHex?, hexValue?_toLower, ih]

/-- Hexadecimal texts write the same bytes exactly if they are equal up to case. -/
theorem ofHex?_eq_iff {s t : String} {x y : List UInt8} (hs : ofHex? s.toList = some x)
    (ht : ofHex? t.toList = some y) : x = y ↔ SameUpToCase s t := by
  constructor
  · rintro rfl
    exact (writes_of_ofHex? hs).sameLetters (writes_of_ofHex? ht)
  · intro hsame
    rw [← Option.some_inj, ← hs, ← ht, ← ofHex?_map_toLower, sameUpToCase_iff.1 hsame,
      ofHex?_map_toLower]

/-! ## Agreement -/

/-- Two texts are the same digest when they are compared as texts, even if both are hexadecimal. -/
def agreeAsTexts (expected actual : String) : Bool :=
  (Text.trim expected).toList.map Char.toLower == (Text.trim actual).toList.map Char.toLower

/-- Texts agree just if they are equal up to case once trimmed. -/
theorem agreeAsTexts_iff {s t : String} :
    agreeAsTexts s t ↔ SameUpToCase (Text.trim s) (Text.trim t) := by
  rw [agreeAsTexts, beq_iff_eq, sameUpToCase_iff]

/-- Comparing hexadecimal texts as bytes decides as comparing them as texts does. -/
theorem agree_eq_agreeAsTexts (s t : String) : agree s t = agreeAsTexts s t := by
  rw [agree]
  split
  · rename_i x y hx hy
    rw [Bool.eq_iff_iff, beq_iff_eq, ofHex?_eq_iff hx hy, agreeAsTexts_iff]
  · rfl

/-- Digests agree just if they are equal up to case once trimmed. -/
theorem agree_iff {s t : String} :
    agree s t ↔ ∃ x y, Text.IsTrimmed s x ∧ Text.IsTrimmed t y ∧ SameUpToCase x y := by
  rw [agree_eq_agreeAsTexts, agreeAsTexts_iff]
  constructor
  · exact fun h => ⟨_, _, Text.isTrimmed_trim s, Text.isTrimmed_trim t, h⟩
  · rintro ⟨x, y, hx, hy, hsame⟩
    rwa [hx.trim_eq, hy.trim_eq]

/-- Agreement is equality of what is compared as texts. -/
theorem equivalence_agree : Equivalence fun s t => agree s t = true := by
  have hkey {s t : String} : agree s t = true ↔
      (Text.trim s).toList.map Char.toLower = (Text.trim t).toList.map Char.toLower := by
    rw [agree_eq_agreeAsTexts, agreeAsTexts, beq_iff_eq]
  exact ⟨fun _ => hkey.2 rfl, fun h => hkey.2 (hkey.1 h).symm,
    fun h h' => hkey.2 ((hkey.1 h).trans (hkey.1 h'))⟩

/-- **Agreement of digests is equality of trimmed texts up to case.** It is an equivalence, and trying to
read both texts as hexadecimal first decides no pair otherwise than the comparison as texts. -/
theorem agreement_exact :
    (Equivalence fun s t => agree s t = true) ∧
      (∀ s t, agree s t ↔ ∃ x y, Text.IsTrimmed s x ∧ Text.IsTrimmed t y ∧ SameUpToCase x y) ∧
      ∀ s t, agree s t = agreeAsTexts s t :=
  ⟨equivalence_agree, fun _ _ => agree_iff, agree_eq_agreeAsTexts⟩

/-- Capital and small digits are the same, in texts of odd length too; other letters keep their case. -/
example : agree " AB1F\n" "ab1f" ∧ agree "AB1" "ab1" ∧ ¬ agree "É" "é" := by decide +kernel

end ProvenanceTrail.Digest
