import ProvenanceTrail.Proofs.Trust.Encoding
import ProvenanceTrail.Proofs.Trust.Group
import ProvenanceTrail.Trust.Signature

/-!
# The equation of a signature

A public key is a point of the group, written with both coordinates or with the abscissa and the parity of
the ordinate (`Curve.WritesPoint`); reading it takes a square root, which is a power because the order of the
field is three modulo four. A pair of numbers `(r, s)` is a signature of a message under the key `Q` when the
point `(z / s) G + (r / s) Q`, where `z` is the digest of the message and the quotients are taken modulo the
order of the group, is not neutral and its abscissa is `r` modulo that order (`Signature.IsOf`). What the
verifier computes on triples decides this (`Signature.verifies_iff`).
-/

namespace ProvenanceTrail

namespace Digest

/-- A number in 32 bytes, the most significant byte first. -/
structure IsWord (bytes : List UInt8) (n : Nat) : Prop where
  length : bytes.length = 32
  value : toNat bytes = n

/-- Two words in a row are the halves of their 64 bytes. -/
theorem exists_words {bytes : List UInt8} (h : bytes.length = 64) : ∃ xs ys, bytes = xs ++ ys ∧
    IsWord xs (toNat (bytes.take 32)) ∧ IsWord ys (toNat (bytes.drop 32)) :=
  ⟨bytes.take 32, bytes.drop 32, (List.take_append_drop 32 bytes).symm,
    ⟨by rw [List.length_take]; omega, rfl⟩, ⟨by rw [List.length_drop]; omega, rfl⟩⟩

end Digest

namespace Curve

/-! ## Square roots -/

/-- The right side of the equation of the curve. -/
def square (x : Nat) : Nat := (mul x (sub (x * x) 3) + constant) % fieldOrder

/-- What is squared at an abscissa stands for the right side of the curve's equation. -/
theorem natCast_square (x : Nat) : (square x : ZMod fieldOrder) = (x : ZMod fieldOrder) ^ 3 - 3 * x + constant := by
  push_cast [square, ZMod.natCast_mod, natCast_mul, natCast_sub]
  ring

theorem square_lt (x : Nat) : square x < fieldOrder := Nat.mod_lt _ (by decide)

/-- The number that is a square root if there is one. -/
def root (n : Nat) : Nat := power fieldOrder n ((fieldOrder + 1) / 4)

theorem root_lt (n : Nat) : root n < fieldOrder := by
  rw [root, power_eq]
  exact Nat.mod_lt _ (by decide)

/-- The power is a root of every square. -/
theorem natCast_root_mul_root {n : Nat} {y : ZMod fieldOrder} (h : y ^ 2 = n) :
    (root n * root n : ZMod fieldOrder) = n := by
  have hroot : (root n : ZMod fieldOrder) = y ^ (2 * ((fieldOrder + 1) / 4)) := by
    rw [root, power_eq, ZMod.natCast_mod, Nat.cast_pow, ← h, pow_mul]
  rw [hroot, ← pow_add, ← h]
  rcases eq_or_ne y 0 with rfl | hy
  · rw [zero_pow (by decide), zero_pow (by decide)]
  · rw [show 2 * ((fieldOrder + 1) / 4) + 2 * ((fieldOrder + 1) / 4) = fieldOrder - 1 + 2 by decide, pow_add,
      ZMod.pow_card_sub_one_eq_one hy, one_mul]

/-- Numbers below the order of the field are equal if they are equal in the field. -/
theorem natCast_inj {a b : Nat} (ha : a < fieldOrder) (hb : b < fieldOrder) :
    (a : ZMod fieldOrder) = b ↔ a = b := by
  rw [ZMod.natCast_eq_natCast_iff', Nat.mod_eq_of_lt ha, Nat.mod_eq_of_lt hb]

/-! ## Public keys -/

/-- Coordinates below the order of the field that solve the equation of the curve. -/
structure OnCurve (x y : Nat) : Prop where
  abscissa : x < fieldOrder
  ordinate : y < fieldOrder
  solves : (y : ZMod fieldOrder) ^ 2 = (x : ZMod fieldOrder) ^ 3 - 3 * x + constant

namespace OnCurve

variable {x y : Nat}

/-- The point of the group that has these coordinates. -/
def point (h : OnCurve x y) : Group := .some (x : ZMod fieldOrder) y (nonsingular_iff.2 h.solves)

/-- The coordinates of a point of the curve stand for it. -/
theorem stands (h : OnCurve x y) : (Point.ofAffine x y).Stands h.point := Point.stands_ofAffine _

end OnCurve

/-- The ordinate of the opposite point. -/
def opposite (y : Nat) : Nat := (fieldOrder - y) % fieldOrder

/-- Whether an ordinate may be asked for as the odd one or the even one of two. Zero, which is the only
one, may be asked for as either. -/
def IsAskedFor (y : Nat) (odd : Bool) : Prop := y = 0 ∨ (y % 2 = 1 ↔ odd = true)

section Opposite

variable {y : Nat}

theorem opposite_zero : opposite 0 = 0 := by decide

theorem opposite_of_ne_zero (hy : y ≠ 0) : opposite y = fieldOrder - y :=
  Nat.mod_eq_of_lt (Nat.sub_lt (by decide) (Nat.pos_of_ne_zero hy))

theorem opposite_lt (y : Nat) : opposite y < fieldOrder := Nat.mod_lt _ (by decide)

/-- Taking the opposite twice changes nothing. -/
theorem opposite_opposite (hy : y < fieldOrder) : opposite (opposite y) = y := by
  rcases eq_or_ne y 0 with rfl | hzero
  · decide
  · rw [opposite_of_ne_zero hzero, opposite_of_ne_zero (by omega)]
    omega

/-- Opposite ordinates other than zero differ in parity. -/
theorem opposite_mod_two (hy : y < fieldOrder) (hzero : y ≠ 0) : opposite y % 2 = 1 ↔ ¬ y % 2 = 1 := by
  have hodd : fieldOrder % 2 = 1 := by decide
  rw [opposite_of_ne_zero hzero]
  omega

/-- An opposite stands for the negative. -/
theorem natCast_opposite (hy : y < fieldOrder) : (opposite y : ZMod fieldOrder) = -y := by
  rw [opposite, ZMod.natCast_mod, Nat.cast_sub hy.le, ZMod.natCast_self, zero_sub]

/-- Of an ordinate and its opposite, the one whose parity is wanted. -/
def pick (y : Nat) (odd : Bool) : Nat := if (y % 2 == 1) == odd then y else opposite y

/-- Of a coordinate and its opposite, the one of the parity asked for is picked. -/
theorem isAskedFor_pick (hy : y < fieldOrder) (odd : Bool) : IsAskedFor (pick y odd) odd := by
  rw [pick]
  split_ifs with h
  · exact .inr (by rw [← beq_iff_eq, beq_iff_eq.1 h])
  · rcases eq_or_ne y 0 with rfl | hzero
    · exact .inl opposite_zero
    · refine .inr ((opposite_mod_two hy hzero).trans ?_)
      cases odd <;> simpa using h

/-- Whichever of the two is at hand, the one that is asked for is picked. -/
theorem pick_eq {odd : Bool} (hy : y < fieldOrder) (h : IsAskedFor y odd) :
    pick y odd = y ∧ pick (opposite y) odd = y := by
  rcases eq_or_ne y 0 with rfl | hzero
  · rw [opposite_zero, pick, opposite_zero]
    simp
  · have hparity : y % 2 = 1 ↔ odd = true := h.resolve_left hzero
    have hother := opposite_mod_two hy hzero
    refine ⟨if_pos ?_, (if_neg ?_).trans (opposite_opposite hy)⟩ <;> cases odd <;> simp_all

end Opposite

namespace Point

variable {p : Point} {x y : Nat} {odd : Bool} {bytes : List UInt8}

/-- An abscissa lifts to the curve by its picked root, if that is one. -/
theorem lift?_eq (x : Nat) (odd : Bool) : lift? x odd =
    if fieldOrder ≤ x then none
    else if mul (root (square x)) (root (square x)) ≠ square x then none
    else some (ofAffine x (pick (root (square x)) odd)) := rfl

/-- The power is a root of the right side exactly if that is a square. -/
theorem mul_root_root_iff : mul (root (square x)) (root (square x)) = square x ↔
    (root (square x) : ZMod fieldOrder) ^ 2 = (x : ZMod fieldOrder) ^ 3 - 3 * x + constant := by
  rw [← natCast_inj (mul_lt _ _) (square_lt x), natCast_mul, ← natCast_square, sq]

/-- Picking does not change the square. -/
theorem sq_pick {y : Nat} (hy : y < fieldOrder) (odd : Bool) :
    (pick y odd : ZMod fieldOrder) ^ 2 = (y : ZMod fieldOrder) ^ 2 := by
  rw [pick]
  split_ifs
  · rfl
  · rw [natCast_opposite hy, neg_sq]

theorem pick_lt {y : Nat} (hy : y < fieldOrder) (odd : Bool) : pick y odd < fieldOrder := by
  rw [pick]
  split_ifs
  · exact hy
  · exact opposite_lt y

/-- The point of given abscissa is found exactly if there is one on the curve. -/
theorem lift?_eq_some_iff : lift? x odd = some p ↔
    ∃ y, OnCurve x y ∧ IsAskedFor y odd ∧ p = ofAffine x y := by
  have hlt := root_lt (square x)
  rw [lift?_eq]
  constructor
  · intro h
    split_ifs at h with hx hroot
    obtain rfl := Option.some.inj h
    have hsolves := mul_root_root_iff.1 (not_not.1 hroot)
    exact ⟨_, ⟨not_le.1 hx, pick_lt hlt odd, (sq_pick hlt odd).trans hsolves⟩, isAskedFor_pick hlt odd, rfl⟩
  · rintro ⟨y, ⟨hx, hy, hsolves⟩, hasked, rfl⟩
    have hroot : (root (square x) : ZMod fieldOrder) ^ 2 = (y : ZMod fieldOrder) ^ 2 := by
      rw [sq, natCast_root_mul_root (hsolves.trans (natCast_square x).symm), natCast_square, hsolves]
    have hpick : pick (root (square x)) odd = y := by
      rcases sq_eq_sq_iff_eq_or_eq_neg.1 hroot with h | h
      · rw [(natCast_inj hlt hy).1 h]
        exact (pick_eq hy hasked).1
      · rw [← natCast_opposite hy] at h
        rw [(natCast_inj hlt (opposite_lt y)).1 h]
        exact (pick_eq hy hasked).2
    rw [if_neg (not_le.2 hx), if_neg (not_not.2 (mul_root_root_iff.2 (hroot.trans hsolves))), hpick]

end Point

/-- Bytes write a pair of coordinates: both of them, or the abscissa and which of the two ordinates is
meant. -/
inductive WritesPoint (x y : Nat) : List UInt8 → Prop
  | both {xs ys : List UInt8} : Digest.IsWord xs x → Digest.IsWord ys y → WritesPoint x y (4 :: (xs ++ ys))
  | even {form : UInt8} {xs : List UInt8} : form = 2 ∨ form = 5 → Digest.IsWord xs x →
      IsAskedFor y false → WritesPoint x y (form :: xs)
  | odd {xs : List UInt8} : Digest.IsWord xs x → IsAskedFor y true → WritesPoint x y (3 :: xs)

namespace Point

variable {p : Point} {x y : Nat} {bytes : List UInt8}

/-- Both coordinates are read exactly if they are those of a point. -/
theorem lift?_both_iff : (lift? x (y % 2 == 1)).bind (fun p => if p.y = y then some p else none) = some p ↔
    OnCurve x y ∧ p = ofAffine x y := by
  rw [Option.bind_eq_some_iff]
  constructor
  · rintro ⟨q, hq, h⟩
    obtain ⟨y', hcurve, -, rfl⟩ := lift?_eq_some_iff.1 hq
    split_ifs at h with hy
    obtain rfl : y' = y := hy
    exact ⟨hcurve, (Option.some.inj h).symm⟩
  · rintro ⟨hcurve, rfl⟩
    exact ⟨_, lift?_eq_some_iff.2 ⟨y, hcurve, .inr (by rw [beq_iff_eq]), rfl⟩, if_pos rfl⟩

/-- The form with both coordinates is read as the lift of the first, if that has the second. -/
theorem ofBytes?_both (hlength : bytes.length = 64) : ofBytes? (4 :: bytes) =
    (lift? (Digest.toNat (bytes.take 32)) (Digest.toNat (bytes.drop 32) % 2 == 1)).bind fun p =>
      if p.y = Digest.toNat (bytes.drop 32) then some p else none := by
  simp only [ofBytes?, beq_self_eq_true, hlength, Bool.and_self, if_true]
  cases lift? (Digest.toNat (bytes.take 32)) (Digest.toNat (bytes.drop 32) % 2 == 1) <;> rfl

/-- The forms with one coordinate are read as the lift of that. -/
theorem ofBytes?_abscissa {form : UInt8} (hform : form = 2 ∨ form = 3 ∨ form = 5)
    (hlength : bytes.length = 32) :
    ofBytes? (form :: bytes) = lift? (Digest.toNat bytes) (form == 3) := by
  rcases hform with rfl | rfl | rfl <;> simp [ofBytes?, hlength]

/-- Bytes from which a public key is read have the form and the length of one of the two ways. -/
theorem exists_of_ofBytes? (h : ofBytes? bytes = some p) : ∃ form rest, bytes = form :: rest ∧
    (form = 4 ∧ rest.length = 64 ∨ (form = 2 ∨ form = 3 ∨ form = 5) ∧ rest.length = 32) := by
  cases bytes with
  | nil => cases h
  | cons form rest =>
    refine ⟨form, rest, rfl, ?_⟩
    simp only [ofBytes?] at h
    split_ifs at h with hboth habscissa
    · exact .inl (by simpa using hboth)
    · exact .inr (by simpa [or_assoc] using habscissa)

/-- A public key is read exactly from the bytes that write a point of the curve. -/
theorem ofBytes?_eq_some_iff : ofBytes? bytes = some p ↔
    ∃ x y, OnCurve x y ∧ WritesPoint x y bytes ∧ p = ofAffine x y := by
  constructor
  · intro h
    -- the first byte tells the form
    obtain ⟨form, rest, rfl, ⟨rfl, hlength⟩ | ⟨hform, hlength⟩⟩ := exists_of_ofBytes? h
    · rw [ofBytes?_both hlength] at h
      obtain ⟨hcurve, rfl⟩ := lift?_both_iff.1 h
      obtain ⟨xs, ys, hrest, hx, hy⟩ := Digest.exists_words hlength
      refine ⟨_, _, hcurve, ?_, rfl⟩
      rw [hrest]
      exact .both (hrest ▸ hx) (hrest ▸ hy)
    · rw [ofBytes?_abscissa hform hlength] at h
      obtain ⟨y, hcurve, hasked, rfl⟩ := lift?_eq_some_iff.1 h
      refine ⟨_, y, hcurve, ?_, rfl⟩
      rcases hform with rfl | rfl | rfl
      · exact .even (.inl rfl) ⟨hlength, rfl⟩ hasked
      · exact .odd ⟨hlength, rfl⟩ hasked
      · exact .even (.inr rfl) ⟨hlength, rfl⟩ hasked
  · rintro ⟨x, y, hcurve, hwrites, rfl⟩
    cases hwrites with
    | both hx hy =>
      have hxlength := hx.length
      have hylength := hy.length
      rw [ofBytes?_both (by rw [List.length_append]; omega), List.take_left' hxlength,
        List.drop_left' hxlength, hx.value, hy.value]
      exact lift?_both_iff.2 ⟨hcurve, rfl⟩
    | even hform hx hasked =>
      rw [ofBytes?_abscissa (by tauto) hx.length, hx.value]
      rcases hform with rfl | rfl
      · exact lift?_eq_some_iff.2 ⟨y, hcurve, hasked, rfl⟩
      · exact lift?_eq_some_iff.2 ⟨y, hcurve, hasked, rfl⟩
    | odd hx hasked =>
      rw [ofBytes?_abscissa (.inr (.inl rfl)) hx.length, hx.value]
      exact lift?_eq_some_iff.2 ⟨y, hcurve, hasked, rfl⟩

end Point

/-! ## The generator -/

/-- The generator is a point of the curve. -/
theorem onCurve_generator : OnCurve Point.generator.x Point.generator.y where
  abscissa := by decide
  ordinate := by decide
  solves := by
    rw [← natCast_square, ← Nat.cast_pow, ZMod.natCast_eq_natCast_iff']
    decide +kernel

/-- The generator, as a point of the group. -/
def base : Group := onCurve_generator.point

/-- The generator stands for the base point. -/
theorem stands_generator : Point.generator.Stands base := onCurve_generator.stands

end Curve

/-! ## Signatures -/

namespace Signature

open Curve

/-- A pair of numbers is a signature of a message under a public key. -/
def IsOf (sig : Signature) (key : Group) (message : List UInt8) : Prop :=
  let z : ZMod groupOrder := Digest.toNat (Digest.Sha256.digest message)
  ∃ x y h, (z / sig.s).val • base + (sig.r / sig.s : ZMod groupOrder).val • key = .some x y h ∧
    x.val % groupOrder = sig.r

/-- A quotient modulo the order of the group is a product with the inverse. -/
theorem val_div (a b : Nat) :
    ((a : ZMod groupOrder) / b).val = a * inverse groupOrder b % groupOrder := by
  rw [div_eq_mul_inv, ← natCast_inverse (by decide), ← Nat.cast_mul, ZMod.val_natCast]

/-- The coordinates that are read off a triple are those of the point that it stands for. -/
theorem abscissa_iff {p : Point} {P : Group} (hp : p.Stands P) {r : Nat} :
    (p.affine?.any fun coordinates => coordinates.1 % groupOrder == r) = true ↔
      ∃ x y h, P = .some x y h ∧ x.val % groupOrder = r := by
  cases P with
  | zero =>
    rw [Point.Stands.affine?_eq_none hp]
    simp
  | some x y h =>
    rw [hp.affine?_eq_some, Option.any_some, beq_iff_eq]
    exact ⟨fun hr => ⟨x, y, h, rfl, hr⟩, fun ⟨_, _, _, heq, hr⟩ => by cases heq; exact hr⟩

/-- A signature is verified by comparing one abscissa with its first number. -/
theorem verifies_eq_any (sig : Signature) (key : Point) (message : List UInt8) :
    sig.verifies key message =
      ((Point.generator.times
            (Digest.toNat (Digest.Sha256.digest message) * inverse groupOrder sig.s % groupOrder)).add
          (key.times (sig.r * inverse groupOrder sig.s % groupOrder))).affine?.any
        fun coordinates => coordinates.1 % groupOrder == sig.r := by
  rw [verifies]
  cases Point.affine? _ <;> rfl

/-- The verifier decides whether the equation holds. -/
theorem verifies_iff {sig : Signature} {p : Point} {key : Group} (hp : p.Stands key)
    (message : List UInt8) : sig.verifies p message = true ↔ sig.IsOf key message := by
  rw [verifies_eq_any, IsOf, val_div, val_div]
  exact abscissa_iff ((stands_generator.times _).add (hp.times _))

end Signature

end ProvenanceTrail
