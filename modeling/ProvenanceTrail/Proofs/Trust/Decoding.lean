import Mathlib.Data.List.Basic
import ProvenanceTrail.Proofs.Trust.Encoding

/-!
# Encodings are unique

`Encoding` shows that what was written is read back. Here is the converse: the readers accept nothing else, so
that bytes or texts mean something exactly if they are what a writer makes of it. This holds for base64
(`Base64.decode?_eq_some_iff`), for elements, one at a time (`expect?_eq_some_iff`) or in a row
(`elements?_eq_some_iff`), and for natural numbers in them (`natural?_eq_some_iff`).
-/

namespace ProvenanceTrail

/-! ## Numbers as bytes -/

namespace Digest

/-- Bytes are those of the number that they write. -/
theorem ofNat_toNat (bytes : List UInt8) : ofNat bytes.length (toNat bytes) = bytes := by
  induction bytes using List.reverseRecOn with
  | nil => rfl
  | append_singleton bytes b ih =>
    have hb := b.toNat_lt
    have hvalue : toNat (bytes ++ [b]) = toNat bytes * 256 + b.toNat := by
      rw [toNat_append, toNat_singleton, List.length_singleton, pow_one]
    have hdiv : (toNat bytes * 256 + b.toNat) / 256 = toNat bytes := by omega
    have hlast : UInt8.ofNat (toNat bytes * 256 + b.toNat) = b := by
      rw [← UInt8.toNat_inj, UInt8.toNat_ofNat']
      omega
    rw [List.length_append, List.length_singleton, hvalue, ofNat, hdiv, ih, hlast]

/-- Bytes that do not begin with zero are the fewest that write their number. -/
theorem shortest_toNat {b : UInt8} {bytes : List UInt8} (hb : b ≠ 0) :
    shortest (toNat (b :: bytes)) = b :: bytes := by
  have hpos : 1 ≤ b.toNat := Nat.pos_of_ne_zero fun h => hb (UInt8.toNat_inj.1 h)
  have hlower : 2 ^ (8 * bytes.length) ≤ toNat (b :: bytes) := by
    rw [toNat_cons, pow_mul]
    exact (Nat.le_mul_of_pos_left _ hpos).trans (Nat.le_add_right _ _)
  have hupper : toNat (b :: bytes) < 2 ^ (8 * (bytes.length + 1)) := by
    rw [pow_mul]
    exact toNat_lt (b :: bytes)
  have hne : toNat (b :: bytes) ≠ 0 := (Nat.pos_of_ne_zero fun h => by
    rw [h] at hlower
    exact absurd hlower (Nat.not_le.2 (Nat.two_pow_pos _))).ne'
  have hleast := (Nat.le_log2 hne).2 hlower
  have hmost := (Nat.log2_lt hne).2 hupper
  rw [shortest_eq_ofNat, show (toNat (b :: bytes)).log2 / 8 + 1 = (b :: bytes).length by
    rw [List.length_cons]; omega]
  exact ofNat_toNat _

end Digest

/-! ## Base64 -/

namespace Base64

/-- Characters are compared by their numbers. -/
theorem le_iff_toNat {c d : Char} : c ≤ d ↔ c.toNat ≤ d.toNat := UInt32.le_iff_toNat_le

/-- A character that has six bits as its value is the one that is written for them. -/
theorem digit_of_value? {c : Char} {n : Nat} (h : value? c = some n) : n < 64 ∧ digit n = c := by
  simp only [value?, le_iff_toNat] at h
  have hback {low offset : Nat} (hlow : low ≤ c.toNat) :
      Char.ofNat (low + (c.toNat - low + offset - offset)) = c := by
    rw [Nat.add_sub_cancel, Nat.add_sub_cancel' hlow, Char.ofNat_toNat]
  split_ifs at h with hcapital hsmall hdigit hplus hslash <;> obtain rfl := Option.some.inj h
  · have hn : c.toNat - 65 < 26 := Nat.lt_of_le_of_lt (Nat.sub_le_sub_right hcapital.2 65) (by decide)
    exact ⟨by omega, by rw [digit, if_pos hn]; exact @hback _ 0 hcapital.1⟩
  · have hn : c.toNat - 97 < 26 := Nat.lt_of_le_of_lt (Nat.sub_le_sub_right hsmall.2 97) (by decide)
    exact ⟨by omega, by rw [digit, if_neg (by omega), if_pos (by omega)]; exact hback hsmall.1⟩
  · have hn : c.toNat - 48 < 10 := Nat.lt_of_le_of_lt (Nat.sub_le_sub_right hdigit.2 48) (by decide)
    exact ⟨by omega, by
      rw [digit, if_neg (by omega), if_neg (by omega), if_pos (by omega)]; exact hback hdigit.1⟩
  · exact ⟨by decide, hplus.symm⟩
  · exact ⟨by decide, hslash.symm⟩

/-- A number below 256 is the number of its byte. -/
theorem toNat_ofNat {n : Nat} (h : n < 256) : (UInt8.ofNat n).toNat = n := by
  rw [UInt8.toNat_ofNat', Nat.mod_eq_of_lt h]

/-- A text is read exactly if it is the one that is written for the bytes. -/
theorem decode?_eq_some_iff {cs : List Char} {bytes : List UInt8} :
    decode? cs = some bytes ↔ cs = encode bytes := by
  refine ⟨fun h => ?_, fun h => h ▸ decode?_encode bytes⟩
  -- four characters at a time, with the bits left over at the end equal to zero
  induction cs using decode?.induct generalizing bytes with
  | case1 =>
    obtain rfl := Option.some.inj h
    rfl
  | case2 a b =>
    simp only [decode?, Option.bind_eq_bind, Option.bind_eq_some_iff] at h
    obtain ⟨x, hx, y, hy, h⟩ := h
    obtain ⟨hxlt, rfl⟩ := digit_of_value? hx
    obtain ⟨hylt, rfl⟩ := digit_of_value? hy
    split_ifs at h with hleft
    obtain rfl := Option.some.inj h
    rw [encode, toNat_ofNat (by omega)]
    congr 2 <;> congr 1 <;> omega
  | case3 a b c hc =>
    rw [decode?] at h
    · simp only [Option.bind_eq_bind, Option.bind_eq_some_iff] at h
      obtain ⟨x, hx, y, hy, z, hz, h⟩ := h
      obtain ⟨hxlt, rfl⟩ := digit_of_value? hx
      obtain ⟨hylt, rfl⟩ := digit_of_value? hy
      obtain ⟨hzlt, rfl⟩ := digit_of_value? hz
      split_ifs at h with hleft
      obtain rfl := Option.some.inj h
      rw [encode, toNat_ofNat (by omega), toNat_ofNat (by omega)]
      congr 3 <;> congr 1 <;> omega
    · exact hc
  | case4 a b c d rest hpadding hpadding' ih =>
    rw [decode?] at h
    · simp only [Option.bind_eq_bind, Option.bind_eq_some_iff] at h
      obtain ⟨x, hx, y, hy, z, hz, w, hw, tail, htail, h⟩ := h
      obtain ⟨hxlt, rfl⟩ := digit_of_value? hx
      obtain ⟨hylt, rfl⟩ := digit_of_value? hy
      obtain ⟨hzlt, rfl⟩ := digit_of_value? hz
      obtain ⟨hwlt, rfl⟩ := digit_of_value? hw
      obtain rfl := Option.some.inj h
      rw [encode, toNat_ofNat (by omega), toNat_ofNat (by omega), toNat_ofNat (by omega), ih htail]
      congr 4 <;> congr 1 <;> omega
    · exact hpadding
    · exact hpadding'
  | case5 cs hnil htwo hthree hfour =>
    rw [decode?] at h
    · cases h
    · exact hnil
    · exact htwo
    · exact hthree
    · exact hfour

end Base64

/-! ## Elements -/

namespace Der

variable {tag : UInt8} {bytes contents rest : List UInt8}

/-- A length is read just from its own bytes. -/
theorem length?_eq_some_iff {n : Nat} :
    length? bytes = some (n, rest) ↔ n ≤ maxLength ∧ bytes = encodeLength n ++ rest := by
  refine ⟨fun h => ?_, fun ⟨hn, hbytes⟩ => hbytes ▸ length?_encodeLength hn rest⟩
  cases bytes with
  | nil => cases h
  | cons b bytes =>
    have hb := b.toNat_lt
    simp only [length?] at h
    split_ifs at h with hshort hlong
    · obtain ⟨rfl, rfl⟩ := Prod.mk.inj (Option.some.inj h)
      have hlt : b.toNat < 0x80 := UInt8.lt_iff_toNat_lt.1 hshort
      rw [encodeLength, if_pos hlt, UInt8.ofNat_toNat, maxLength]
      exact ⟨by omega, rfl⟩
    · obtain ⟨rfl, rfl⟩ := Prod.mk.inj (Option.some.inj h)
      obtain ⟨-, -, hcount, hmin, hmax, hdigits⟩ := hlong
      have hge : 0x80 ≤ b.toNat := UInt8.le_iff_toNat_le.1 (UInt8.not_lt.1 hshort)
      refine ⟨hmax, ?_⟩
      rw [encodeLength, if_neg (Nat.not_lt.2 hmin), hdigits]
      simp only [hcount, Nat.add_sub_cancel' hge, UInt8.ofNat_toNat, List.cons_append,
        List.take_append_drop]

/-- An element that can be written: its tag is a known one and its contents are not too long. -/
structure IsElement (tag : UInt8) (contents : List UInt8) : Prop where
  tag : isTag tag = true
  length : contents.length ≤ maxLength

/-- An element is read just from its own bytes. -/
theorem element?_eq_some_iff : element? bytes = some (tag, contents, rest) ↔
    IsElement tag contents ∧ bytes = encode tag contents ++ rest := by
  constructor
  · intro h
    cases bytes with
    | nil => cases h
    | cons t bytes =>
      simp only [element?] at h
      split_ifs at h with htag
      split at h
      · rename_i n after hlength
        split_ifs at h with hfits
        simp only [Option.some.injEq, Prod.mk.injEq] at h
        obtain ⟨rfl, rfl, rfl⟩ := h
        obtain ⟨hmax, rfl⟩ := length?_eq_some_iff.1 hlength
        have hcontents : (after.take n).length = n := List.length_take_of_le hfits
        refine ⟨⟨htag, hcontents.trans_le hmax⟩, ?_⟩
        rw [encode, hcontents, List.cons_append, List.append_assoc, List.take_append_drop]
      · cases h
  · rintro ⟨⟨htag, hlength⟩, rfl⟩
    rw [encode, List.cons_append, List.append_assoc, element?, if_pos htag, length?_encodeLength hlength]
    simp

/-- An element of a tag is read exactly from the bytes that begin with it. -/
theorem expect?_eq_some_iff : expect? tag bytes = some (contents, rest) ↔
    IsElement tag contents ∧ bytes = encode tag contents ++ rest := by
  rw [← element?_eq_some_iff, expect?]
  rcases element? bytes with _ | ⟨t, c, r⟩
  · simp
  · by_cases ht : t = tag <;> simp [ht]

/-- The only element is read exactly from the bytes that are this element. -/
theorem only?_eq_some_iff : only? tag bytes = some contents ↔
    IsElement tag contents ∧ bytes = encode tag contents := by
  have hend : expect? tag bytes = some (contents, []) ↔
      IsElement tag contents ∧ bytes = encode tag contents := by
    rw [expect?_eq_some_iff, List.append_nil]
  rw [← hend, only?]
  rcases expect? tag bytes with _ | ⟨c, _ | _⟩ <;> simp

/-! ### Elements in a row -/

/-- Bytes are elements in a row. -/
def Elements (es : List (UInt8 × List UInt8)) (bytes : List UInt8) : Prop :=
  (∀ e ∈ es, IsElement e.1 e.2) ∧ bytes = es.flatMap fun e => encode e.1 e.2

variable {e : UInt8 × List UInt8} {es : List (UInt8 × List UInt8)}

@[simp]
theorem elements_nil : Elements [] bytes ↔ bytes = [] := by simp [Elements]

theorem elements_cons : Elements (e :: es) bytes ↔
    ∃ rest, element? bytes = some (e.1, e.2, rest) ∧ Elements es rest := by
  simp only [element?_eq_some_iff, Elements, List.forall_mem_cons, List.flatMap_cons]
  constructor
  · rintro ⟨⟨he, hes⟩, rfl⟩
    exact ⟨_, ⟨he, rfl⟩, hes, rfl⟩
  · rintro ⟨_, ⟨he, rfl⟩, hes, rfl⟩
    exact ⟨⟨he, hes⟩, rfl⟩

/-- Bytes are read up to the end exactly if they are elements in a row, no more than may be read. -/
theorem elementsUpTo_eq_some_iff {fuel : Nat} :
    elementsUpTo fuel bytes = some es ↔ Elements es bytes ∧ es.length ≤ fuel := by
  induction fuel generalizing bytes es with
  | zero =>
    cases bytes with
    | nil => cases es <;> simp [elementsUpTo, elements_cons, element?]
    | cons b bytes => cases es <;> simp [elementsUpTo]
  | succ fuel ih =>
    cases bytes with
    | nil => cases es <;> simp [elementsUpTo, elements_cons, element?]
    | cons b bytes =>
      simp only [elementsUpTo]
      cases es with
      | nil =>
        rcases element? (b :: bytes) with _ | ⟨t, c, r⟩ <;> simp
      | cons e es =>
        rw [elements_cons, List.length_cons, Nat.add_le_add_iff_right]
        rcases element? (b :: bytes) with _ | ⟨t, c, r⟩
        · simp
        · obtain ⟨t', c'⟩ := e
          simp only [Option.map_eq_some_iff, ih, List.cons.injEq, Prod.mk.injEq, Option.some.injEq]
          constructor
          · rintro ⟨_, ⟨h, hlength⟩, ⟨rfl, rfl⟩, rfl⟩
            exact ⟨⟨r, ⟨rfl, rfl, rfl⟩, h⟩, hlength⟩
          · rintro ⟨⟨_, ⟨rfl, rfl, rfl⟩, h⟩, hlength⟩
            exact ⟨es, ⟨h, hlength⟩, ⟨rfl, rfl⟩, rfl⟩

/-- An element takes two bytes at least. -/
theorem Elements.length_le (h : Elements es bytes) : es.length ≤ bytes.length := by
  induction es generalizing bytes with
  | nil => exact Nat.zero_le _
  | cons e es ih =>
    obtain ⟨rest, helement, hes⟩ := elements_cons.1 h
    obtain ⟨-, rfl⟩ := element?_eq_some_iff.1 helement
    have := ih hes
    rw [List.length_append, encode, List.length_cons, List.length_cons]
    omega

/-- Elements are read up to the end exactly from the bytes that are these elements in a row. -/
theorem elements?_eq_some_iff : elements? bytes = some es ↔ Elements es bytes := by
  rw [elements?, elementsUpTo_eq_some_iff]
  exact ⟨And.left, fun h => ⟨h, h.length_le⟩⟩

/-! ### Numbers and bits -/

/-- A natural number is read exactly from the contents that are written for it. -/
theorem natural?_eq_some_iff {n : Nat} : natural? contents = some n ↔ contents = naturalContents n := by
  refine ⟨fun h => ?_, fun h => h ▸ natural?_naturalContents n⟩
  rw [natural?] at h
  split_ifs at h with hform
  obtain rfl := Option.some.inj h
  obtain ⟨hinteger, hsign⟩ : isInteger contents = true ∧ contents.headD 0 < 0x80 := by simpa using hform
  rcases contents with _ | ⟨a, _ | ⟨b, rest⟩⟩
  · cases hinteger
  · rcases eq_or_ne a 0 with rfl | ha
    · decide
    · rw [naturalContents, Digest.shortest_toNat ha, if_neg (UInt8.not_le.2 hsign)]
  · rcases eq_or_ne a 0 with rfl | ha
    · -- The zero is there for the sign only.
      have hb : 0x80 ≤ b := by simpa [isInteger] using hinteger
      have hne : b ≠ 0 := by rintro rfl; exact absurd hb (by decide)
      have hvalue : Digest.toNat (0 :: b :: rest) = Digest.toNat (b :: rest) := by
        rw [Digest.toNat_cons]
        simp
      rw [naturalContents, hvalue, Digest.shortest_toNat hne,
        if_pos (show 0x80 ≤ (b :: rest).headD 0 from hb)]
    · rw [naturalContents, Digest.shortest_toNat ha, if_neg (UInt8.not_le.2 hsign)]

end Der

end ProvenanceTrail
