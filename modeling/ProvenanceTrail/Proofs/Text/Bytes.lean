import Mathlib.Data.String.Basic

/-!
# Texts as bytes

The bytes of a text are those of its characters one after the other. They determine the text, and they
are ordered as the texts are: the first byte of a character tells how many follow, and grows with the
character.
-/

namespace ProvenanceTrail.Text

/-- The bytes in which a text is written. -/
def bytes (s : String) : List UInt8 := s.toUTF8.toList

/-- The loop over an array of bytes adds those from its place on. -/
theorem toList_loop (bs : ByteArray) (i : Nat) (r : List UInt8) :
    ByteArray.toList.loop bs i r = r.reverse ++ bs.data.toList.drop i := by
  fun_induction ByteArray.toList.loop bs i r with
  | case1 i r h ih =>
    have hi : i < bs.data.toList.length := by simpa using h
    rw [ih, List.drop_eq_getElem_cons hi, List.reverse_cons, List.append_assoc, List.singleton_append]
    simp [ByteArray.get!, getElem!_pos bs.data i h]
  | case2 i r h =>
    rw [List.drop_eq_nil_of_le (by simpa using h), List.append_nil]

/-- The bytes of a text are those it is stored as. -/
theorem bytes_eq_data (s : String) : bytes s = s.toByteArray.data.toList := by
  rw [bytes, String.toUTF8_eq_toByteArray, ByteArray.toList, toList_loop]
  simp

/-- Different texts have different bytes. -/
theorem bytes_inj {s t : String} : bytes s = bytes t ↔ s = t := by
  rw [bytes_eq_data, bytes_eq_data, Array.toList_inj, ← ByteArray.ext_iff, String.toByteArray_inj]

/-- The bytes of characters are their UTF-8 codings. -/
theorem bytes_ofList (cs : List Char) :
    bytes (String.ofList cs) = cs.flatMap String.utf8EncodeChar := by
  rw [bytes_eq_data, ← String.utf8Encode_toList, String.toList_ofList, List.utf8Encode,
    List.toList_data_toByteArray]

/-- The bytes of a text are the UTF-8 codings of its characters. -/
theorem bytes_eq_flatMap (s : String) : bytes s = s.toList.flatMap String.utf8EncodeChar := by
  rw [← bytes_ofList, String.ofList_toList]

/-- A greater character has greater bytes, whatever follows. -/
theorem utf8EncodeChar_append_lt {c d : Char} (h : c < d) (r r' : List UInt8) :
    String.utf8EncodeChar c ++ r < String.utf8EncodeChar d ++ r' := by
  have hlt : c.val.toNat < d.val.toNat := h
  have hd : d.val.toNat < 0x110000 := by
    have := d.valid
    rcases this with h | h <;> omega
  -- a byte that continues a character, and the first of four, are taken without loss
  have continues (n : Nat) : (n % 0x40 + 0x80) % 2 ^ 8 = n % 0x40 + 0x80 := by omega
  have leads (n : Nat) : (n % 0x08 + 0xf0) % 2 ^ 8 = n % 0x08 + 0xf0 := by omega
  have places (n : Nat) (hn : n < 0x110000) : n / 0x40 / 0x40 = n / 0x1000 ∧
      n / 0x1000 / 0x40 = n / 0x40000 ∧ n / 0x40000 % 0x08 = n / 0x40000 := by omega
  have hc' := places c.val.toNat (hlt.trans hd)
  have hd' := places d.val.toNat hd
  unfold String.utf8EncodeChar
  simp only
  split_ifs <;> simp only [List.cons_append, List.nil_append, List.cons_lt_cons_iff,
    UInt8.lt_iff_toNat_lt, UInt8.toNat_ofNat', ← UInt8.toNat_inj, continues, leads] <;> omega

/-- UTF-8 keeps the order of texts. -/
theorem flatMap_utf8EncodeChar_lt {cs ds : List Char} (h : cs < ds) :
    cs.flatMap String.utf8EncodeChar < ds.flatMap String.utf8EncodeChar := by
  induction cs generalizing ds with
  | nil =>
    obtain _ | ⟨d, ds⟩ := ds
    · exact absurd h (List.not_lt_nil _)
    · obtain ⟨b, bs, hb⟩ := List.exists_cons_of_ne_nil (String.utf8EncodeChar_ne_nil (c := d))
      rw [List.flatMap_nil, List.flatMap_cons, hb]
      exact List.nil_lt_cons _ _
  | cons c cs ih =>
    obtain _ | ⟨d, ds⟩ := ds
    · exact absurd h (List.not_lt_nil _)
    · rw [List.flatMap_cons, List.flatMap_cons]
      rcases List.cons_lt_cons_iff.1 h with hcd | ⟨rfl, hlt⟩
      · exact utf8EncodeChar_append_lt hcd _ _
      · exact List.append_left_lt (ih hlt)

/-- Texts are ordered as their bytes are. -/
theorem bytes_lt_bytes_iff {s t : String} : bytes s < bytes t ↔ s < t := by
  have of_lt {s t : String} (h : s < t) : bytes s < bytes t := by
    rw [bytes_eq_flatMap, bytes_eq_flatMap]
    exact flatMap_utf8EncodeChar_lt h
  refine ⟨fun h => ?_, of_lt⟩
  rcases lt_trichotomy s t with hst | rfl | hts
  · exact hst
  · exact absurd h (List.lt_irrefl _)
  · exact absurd h (List.lt_asymm (of_lt hts))

end ProvenanceTrail.Text
