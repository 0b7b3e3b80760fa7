import Mathlib.Data.List.Induction
import Mathlib.Tactic.Ring
import ProvenanceTrail.Text.Blank
import ProvenanceTrail.Trust.Base64
import ProvenanceTrail.Trust.Der

/-!
# Encodings read back

What the writers of bytes produce is what the readers give back: numbers as bytes (`toNat_shortest`),
bytes as base64 text (`decode?_encode`), elements (`expect?_encode`) and natural numbers in elements
(`natural?_naturalContents`). How many bytes a natural number takes in an element is `naturalSize`: one
bit is kept for the sign, so a whole byte is added when the highest bit of a byte is in use.
-/

namespace ProvenanceTrail

/-! ## Numbers as bytes -/

namespace Digest

variable {n : Nat}

@[simp]
theorem toNat_nil : toNat [] = 0 := rfl

/-- Bytes in front count the power of 256 that those behind leave them. -/
theorem toNat_append (xs ys : List UInt8) :
    toNat (xs ++ ys) = toNat xs * 256 ^ ys.length + toNat ys := by
  induction ys using List.reverseRecOn with
  | nil => simp
  | append_singleton ys y ih =>
    have snoc (zs : List UInt8) : toNat (zs ++ [y]) = 256 * toNat zs + y.toNat := by
      simp [toNat, List.foldl_append]
    rw [← List.append_assoc, snoc, snoc, ih, List.length_append, List.length_singleton, pow_succ]
    ring

theorem toNat_singleton (b : UInt8) : toNat [b] = b.toNat := by simp [toNat]

/-- The first byte counts the power of 256 that the others leave it. -/
theorem toNat_cons (b : UInt8) (bytes : List UInt8) :
    toNat (b :: bytes) = b.toNat * 256 ^ bytes.length + toNat bytes := by
  rw [← List.singleton_append, toNat_append, toNat_singleton]

/-- A number of some bytes is below that power of 256. -/
theorem toNat_lt (bytes : List UInt8) : toNat bytes < 256 ^ bytes.length := by
  induction bytes with
  | nil => simp
  | cons b bytes ih =>
    have hb := b.toNat_lt
    rw [toNat_cons, List.length_cons, pow_succ]
    calc b.toNat * 256 ^ bytes.length + toNat bytes
        < b.toNat * 256 ^ bytes.length + 256 ^ bytes.length := Nat.add_lt_add_left ih _
      _ = (b.toNat + 1) * 256 ^ bytes.length := by ring
      _ ≤ 256 * 256 ^ bytes.length := Nat.mul_le_mul_right _ (by omega)
      _ = 256 ^ bytes.length * 256 := Nat.mul_comm _ _

/-- A number is written with as many bytes as it is given. -/
@[simp]
theorem length_ofNat (width n : Nat) : (ofNat width n).length = width := by
  induction width generalizing n with
  | zero => rfl
  | succ width ih => rw [ofNat, List.length_append, ih, List.length_singleton]

/-- A number written with some bytes is read back up to that power of 256. -/
theorem toNat_ofNat (width n : Nat) : toNat (ofNat width n) = n % 256 ^ width := by
  induction width generalizing n with
  | zero => simp [ofNat, Nat.mod_one]
  | succ width ih =>
    have hsplit : n % 256 ^ (width + 1) = n % 256 + 256 * (n / 256 % 256 ^ width) := by
      rw [pow_succ', Nat.mod_mul]
    rw [ofNat, toNat_append, ih, toNat_singleton, List.length_singleton, pow_one, UInt8.toNat_ofNat',
      hsplit]
    omega

/-- The first of the bytes counts the highest power. -/
theorem ofNat_succ (width n : Nat) :
    ofNat (width + 1) n = UInt8.ofNat (n / 256 ^ width) :: ofNat width n := by
  induction width generalizing n with
  | zero => simp [ofNat]
  | succ width ih =>
    rw [ofNat, ih, ofNat, Nat.div_div_eq_div_mul, ← pow_succ', List.cons_append]

/-- The shortest bytes of a number are as many as it needs. -/
theorem shortest_eq_ofNat (n : Nat) : shortest n = ofNat (n.log2 / 8 + 1) n := by
  rw [shortest]
  congr 1
  omega

/-- A number needs one byte for every eight bits. -/
theorem length_shortest (n : Nat) : (shortest n).length = n.log2 / 8 + 1 := by
  rw [shortest_eq_ofNat, length_ofNat]

/-- A number fits the bytes it needs. -/
theorem lt_pow_log2_div (n : Nat) : n < 256 ^ (n.log2 / 8 + 1) :=
  calc n < 2 ^ (n.log2 + 1) := Nat.lt_log2_self
    _ ≤ 2 ^ (8 * (n.log2 / 8 + 1)) := Nat.pow_le_pow_right (by decide) (by omega)
    _ = 256 ^ (n.log2 / 8 + 1) := pow_mul 2 8 _

/-- The fewest bytes that write a number write it. -/
theorem toNat_shortest (n : Nat) : toNat (shortest n) = n := by
  rw [shortest_eq_ofNat, toNat_ofNat, Nat.mod_eq_of_lt (lt_pow_log2_div n)]

/-- The first byte of a number, and what it says about the highest bit in use. -/
theorem exists_shortest_eq_cons (hn : n ≠ 0) :
    ∃ b bytes, shortest n = b :: bytes ∧ b ≠ 0 ∧ (0x80 ≤ b ↔ n.log2 % 8 = 7) := by
  have hpos : 0 < 256 ^ (n.log2 / 8) := Nat.pow_pos (by decide)
  have hlt : n / 256 ^ (n.log2 / 8) < 2 ^ 8 :=
    Nat.div_lt_of_lt_mul (by simpa [pow_succ] using lt_pow_log2_div n)
  have hhead : (UInt8.ofNat (n / 256 ^ (n.log2 / 8))).toNat = n / 256 ^ (n.log2 / 8) := by
    rw [UInt8.toNat_ofNat', Nat.mod_eq_of_lt hlt]
  have hbit : 0x80 ≤ n / 256 ^ (n.log2 / 8) ↔ 8 * (n.log2 / 8) + 7 ≤ n.log2 := by
    rw [Nat.le_div_iff_mul_le hpos, Nat.le_log2 hn, pow_add, pow_mul, Nat.mul_comm]
    exact Iff.rfl
  refine ⟨_, _, (shortest_eq_ofNat n).trans (ofNat_succ _ n), fun hzero => ?_, ?_⟩
  · have hle : 256 ^ (n.log2 / 8) ≤ n := by
      calc 256 ^ (n.log2 / 8) = 2 ^ (8 * (n.log2 / 8)) := (pow_mul 2 8 _).symm
        _ ≤ 2 ^ n.log2 := Nat.pow_le_pow_right (by decide) (Nat.mul_div_le _ _)
        _ ≤ n := Nat.log2_self_le hn
    have hone := Nat.div_pos hle hpos
    rw [← hhead, hzero] at hone
    exact absurd hone (by decide)
  · rw [UInt8.le_iff_toNat_le, hhead]
    exact hbit.trans (by omega)

end Digest

/-! ## Base64 -/

namespace Base64

/-- A digit is read back as its value. -/
theorem value?_digit : ∀ {n : Nat}, n < 64 → value? (digit n) = some n := by decide

/-- No digit is the padding. -/
theorem digit_ne_padding : ∀ {n : Nat}, n < 64 → digit n ≠ '=' := by decide

/-- No digit is a blank. -/
theorem isBlank_digit : ∀ {n : Nat}, n < 64 → Text.isBlank (digit n) = false := by decide

/-- Reading a group of four characters without padding. -/
theorem decode?_group {a b c d : Nat} (ha : a < 64) (hb : b < 64) (hc : c < 64) (hd : d < 64)
    (rest : List Char) :
    decode? (digit a :: digit b :: digit c :: digit d :: rest) =
      (decode? rest).map fun bytes => UInt8.ofNat (a * 4 + b / 16) ::
        UInt8.ofNat (b % 16 * 16 + c / 4) :: UInt8.ofNat (c % 4 * 64 + d) :: bytes := by
  have hpadding := digit_ne_padding hd
  rw [decode?]
  · simp only [value?_digit ha, value?_digit hb, value?_digit hc, value?_digit hd]
    cases decode? rest <;> rfl
  · exact fun _ h _ => hpadding h
  · exact fun h _ => hpadding h

/-- Reading gives back the bytes that were written. -/
theorem decode?_encode : ∀ bytes : List UInt8, decode? (encode bytes) = some bytes
  | [] => rfl
  | [a] => by
    have ha := a.toNat_lt
    rw [encode, decode?, value?_digit (by omega), value?_digit (by omega)]
    have hleft : a.toNat * 65536 / 4096 % 64 % 16 = 0 := by omega
    have hbyte : a.toNat * 65536 / 262144 * 4 + a.toNat * 65536 / 4096 % 64 / 16 = a.toNat := by omega
    simp only [Option.bind_eq_bind, Option.bind_some, hleft, if_true, hbyte, UInt8.ofNat_toNat]
  | [a, b] => by
    have ha := a.toNat_lt
    have hb := b.toNat_lt
    generalize hn : a.toNat * 65536 + b.toNat * 256 = n
    have hpadding := digit_ne_padding (n := n / 64 % 64) (by omega)
    have hleft : n / 64 % 64 % 4 = 0 := by omega
    have hfirst : n / 262144 * 4 + n / 4096 % 64 / 16 = a.toNat := by omega
    have hsecond : n / 4096 % 64 % 16 * 16 + n / 64 % 64 / 4 = b.toNat := by omega
    rw [encode, hn, decode?, value?_digit (by omega), value?_digit (by omega), value?_digit (by omega)]
    · simp only [Option.bind_eq_bind, Option.bind_some, hleft, if_true, hfirst, hsecond,
        UInt8.ofNat_toNat]
    · exact hpadding
  -- three bytes fill four digits
  | a :: b :: c :: rest => by
    have ha := a.toNat_lt
    have hb := b.toNat_lt
    have hc := c.toNat_lt
    generalize hn : a.toNat * 65536 + b.toNat * 256 + c.toNat = n
    have hfirst : n / 262144 * 4 + n / 4096 % 64 / 16 = a.toNat := by omega
    have hsecond : n / 4096 % 64 % 16 * 16 + n / 64 % 64 / 4 = b.toNat := by omega
    have hthird : n / 64 % 64 % 4 * 64 + n % 64 = c.toNat := by omega
    rw [encode, hn, decode?_group (by omega) (by omega) (by omega) (by omega), decode?_encode rest]
    simp only [Option.map_some, hfirst, hsecond, hthird, UInt8.ofNat_toNat]

/-- No character of a written text is blank. -/
theorem isBlank_of_mem_encode : ∀ {bytes : List UInt8}, ∀ c ∈ encode bytes, Text.isBlank c = false
  | [] => nofun
  | [a] => by
    have ha := a.toNat_lt
    rw [encode]
    simp only [List.forall_mem_cons]
    exact ⟨isBlank_digit (by omega), isBlank_digit (by omega), by decide, by decide, nofun⟩
  | [a, b] => by
    have ha := a.toNat_lt
    have hb := b.toNat_lt
    rw [encode]
    simp only [List.forall_mem_cons]
    exact ⟨isBlank_digit (by omega), isBlank_digit (by omega), isBlank_digit (by omega), by decide, nofun⟩
  | a :: b :: c :: rest => by
    have ha := a.toNat_lt
    have hb := b.toNat_lt
    have hc := c.toNat_lt
    rw [encode]
    simp only [List.forall_mem_cons]
    exact ⟨isBlank_digit (by omega), isBlank_digit (by omega), isBlank_digit (by omega),
      isBlank_digit (by omega), isBlank_of_mem_encode⟩

end Base64

/-! ## Trimming -/

namespace Text

/-- Trimming leaves a text without blanks as it is. -/
theorem trim_of_noBlanks {s : String} (h : ∀ c ∈ s.toList, isBlank c = false) : trim s = s := by
  have hstart : trimStart s.toList = s.toList := by
    cases hcs : s.toList with
    | nil => rfl
    | cons c cs => exact List.dropWhile_cons_of_neg (by simp [h c (hcs ▸ List.mem_cons_self)])
  have hend : ∀ cs : List Char, (∀ c ∈ cs, isBlank c = false) → dropEndWhile isBlank cs = cs := by
    intro cs hcs
    induction cs with
    | nil => rfl
    | cons c cs ih =>
      obtain ⟨hc, hcs⟩ := List.forall_mem_cons.1 hcs
      have ih : cs.foldr (fun c rest => if rest.isEmpty && isBlank c then [] else c :: rest) [] = cs :=
        ih hcs
      rw [dropEndWhile, List.foldr_cons, ih, hc, Bool.and_false]
      rfl
  rw [trim, hstart, hend _ h, String.ofList_toList]

end Text

/-! ## Elements -/

namespace Der

variable {tag : UInt8} {contents : List UInt8}

/-- A length is read back, with what follows left over. -/
theorem length?_encodeLength {n : Nat} (hn : n ≤ maxLength) (rest : List UInt8) :
    length? (encodeLength n ++ rest) = some (n, rest) := by
  rw [encodeLength]
  split_ifs with hshort
  · have hbyte : (UInt8.ofNat n).toNat = n := by
      rw [UInt8.toNat_ofNat', Nat.mod_eq_of_lt (by omega)]
    have hlt : UInt8.ofNat n < 0x80 := by
      rw [UInt8.lt_iff_toNat_lt, hbyte]
      exact hshort
    simp [length?, hlt, hbyte]
  · -- a greater length has its bytes behind one that counts them, four at most
    have hlog : n.log2 < 28 := (Nat.log2_lt (by omega)).2 (by rw [maxLength] at hn; omega)
    have hcount : (Digest.shortest n).length ≤ 4 := by
      rw [Digest.length_shortest]
      omega
    have hbyte : (UInt8.ofNat (0x80 + (Digest.shortest n).length)).toNat =
        0x80 + (Digest.shortest n).length := by
      rw [UInt8.toNat_ofNat', Nat.mod_eq_of_lt (by omega)]
    have hlong : ¬ UInt8.ofNat (0x80 + (Digest.shortest n).length) < 0x80 := by
      rw [UInt8.lt_iff_toNat_lt, hbyte]
      exact Nat.not_lt.2 (Nat.le_add_right _ _)
    have hpos : 1 ≤ (Digest.shortest n).length := by
      rw [Digest.length_shortest]
      omega
    have hmin : 0x80 ≤ n := Nat.not_lt.1 hshort
    simp only [List.cons_append, length?, if_neg hlong, hbyte, Nat.add_sub_cancel_left, List.take_left',
      List.drop_left', Digest.toNat_shortest]
    rw [if_pos ⟨hpos, hcount, trivial, hmin, hn, trivial⟩]

/-- Reading an element in front of more bytes gives back its contents and those bytes. -/
theorem expect?_encode (htag : isTag tag = true) (hlength : contents.length ≤ maxLength)
    (rest : List UInt8) : expect? tag (encode tag contents ++ rest) = some (contents, rest) := by
  have helement : element? (encode tag contents ++ rest) = some (tag, contents, rest) := by
    rw [encode, List.cons_append, List.append_assoc, element?, if_pos htag,
      length?_encodeLength hlength]
    simp
  rw [expect?, helement]
  exact if_pos rfl

/-- Reading a last element. -/
theorem only?_encode (htag : isTag tag = true) (hlength : contents.length ≤ maxLength) :
    only? tag (encode tag contents) = some contents := by
  rw [only?, ← List.append_nil (encode tag contents), expect?_encode htag hlength]

/-- The contents of the integer that stands for a natural number. -/
def naturalContents (n : Nat) : List UInt8 :=
  let digits := Digest.shortest n
  if 0x80 ≤ digits.headD 0 then 0 :: digits else digits

/-- A natural number is the element of an integer with its contents. -/
theorem encodeNatural_eq_encode (n : Nat) : encodeNatural n = encode integer (naturalContents n) := rfl

/-- How many bytes the contents of a natural number take: its bits and one for the sign. -/
def naturalSize (n : Nat) : Nat := (n.log2 + 1) / 8 + 1

/-- The contents of a natural number make that number. -/
theorem toNat_naturalContents (n : Nat) : Digest.toNat (naturalContents n) = n := by
  rw [naturalContents]
  split_ifs
  · rw [Digest.toNat_cons, Digest.toNat_shortest]
    simp
  · exact Digest.toNat_shortest n

/-- The contents of a natural number have its size. -/
theorem length_naturalContents (n : Nat) : (naturalContents n).length = naturalSize n := by
  rcases eq_or_ne n 0 with rfl | hn
  · decide
  · obtain ⟨b, bytes, hbytes, -, hhigh⟩ := Digest.exists_shortest_eq_cons hn
    have hlength := Digest.length_shortest n
    rw [naturalContents, naturalSize]
    simp only [hbytes, List.headD_cons] at hlength ⊢
    split_ifs with h
    · have := hhigh.1 h
      rw [List.length_cons, hlength]
      omega
    · have := mt hhigh.2 h
      rw [hlength]
      omega

/-- The contents of a natural number are read back. -/
theorem natural?_naturalContents (n : Nat) : natural? (naturalContents n) = some n := by
  suffices h : isInteger (naturalContents n) = true ∧ (naturalContents n).headD 0 < 0x80 by
    rw [natural?, h.1, decide_eq_true h.2, toNat_naturalContents]
    rfl
  rcases eq_or_ne n 0 with rfl | hn
  · decide
  · obtain ⟨b, bytes, hbytes, hzero, -⟩ := Digest.exists_shortest_eq_cons hn
    rw [naturalContents]
    simp only [hbytes, List.headD_cons]
    split_ifs with h
    · simp [isInteger, h]
    · have hlow : b < 0x80 := UInt8.not_le.1 h
      have hne : b ≠ 0xFF := by rintro rfl; exact absurd hlow (by decide)
      refine ⟨?_, hlow⟩
      cases bytes <;> simp [isInteger, hzero, hne]

end Der

end ProvenanceTrail
