/-!
# Finite values of the binary64 format

A value is a sign, a mantissa and a power of two, kept in the format's unique form. Every operation
computes the exact result as a quotient of naturals and rounds once, to the nearest value and on a
tie to the even mantissa; a result too large for the format is `none`.
-/

namespace ProvenanceTrail

/-- The finite value `± mantissa · 2 ^ exponent`. -/
structure Binary64 where
  negative : Bool
  mantissa : Nat
  exponent : Int
deriving DecidableEq, Repr

namespace Binary64

/-- The least exponent of the format. -/
def minExponent : Int := -1074

/-- The greatest exponent of the format. -/
def maxExponent : Int := 971

/-- Zero, which the format writes with either sign. -/
def zero (negative : Bool) : Binary64 := ⟨negative, 0, minExponent⟩

/-- The natural number nearest to `a / b`; a tie goes to the even one. -/
def roundQuotient (a b : Nat) : Nat :=
  let q := a / b
  let r := a % b
  if b < 2 * r || (2 * r == b && q % 2 == 1) then q + 1 else q

/-- The quotient of `a / b` by a power of two, rounded. -/
def roundScaled (a b : Nat) (exponent : Int) : Nat :=
  if 0 ≤ exponent then roundQuotient a (b * Nat.pow 2 exponent.toNat)
  else roundQuotient (a * Nat.pow 2 (-exponent).toNat) b

/-- The exponent at which `a / b` has a mantissa of 53 bits, or the least of the format. -/
def exponentFor (a b : Nat) : Int :=
  let guess : Int := (a.log2 : Int) - (b.log2 : Int) - 52
  let fits : Bool :=
    if 0 ≤ guess then b * Nat.pow 2 (guess.toNat + 52) ≤ a
    else b * Nat.pow 2 52 ≤ a * Nat.pow 2 (-guess).toNat
  max minExponent (if fits then guess else guess - 1)

/-- The value nearest to `± a / b`; `none` when that is beyond the largest finite one. -/
def ofRatio? (negative : Bool) (a b : Nat) : Option Binary64 :=
  if a = 0 then some (zero negative) else
  let e := exponentFor a b
  let m := roundScaled a b e
  let (m, e) := if m = Nat.pow 2 53 then (Nat.pow 2 52, e + 1) else (m, e)
  if maxExponent < e then none
  else if m = 0 then some (zero negative)
  else some ⟨negative, m, e⟩

/-- Numerator and denominator of the magnitude. -/
def ratio (x : Binary64) : Nat × Nat :=
  if 0 ≤ x.exponent then (x.mantissa * Nat.pow 2 x.exponent.toNat, 1)
  else (x.mantissa, Nat.pow 2 (-x.exponent).toNat)

/-- The rounded product. -/
def mul? (x y : Binary64) : Option Binary64 :=
  let (a, b) := x.ratio
  let (c, d) := y.ratio
  ofRatio? (x.negative != y.negative) (a * c) (b * d)

/-- The rounded quotient; a zero divisor gives `none`. -/
def div? (x y : Binary64) : Option Binary64 :=
  let (a, b) := x.ratio
  let (c, d) := y.ratio
  if c = 0 then none else ofRatio? (x.negative != y.negative) (a * d) (b * c)

/-- The mantissa with its sign, in units of `2 ^ minExponent`; values compare as these integers. -/
def scaled (x : Binary64) : Int :=
  let magnitude : Int := x.mantissa * Nat.pow 2 (x.exponent - minExponent).toNat
  if x.negative then -magnitude else magnitude

/-- Numerical order; the two zeros are equal. -/
def blt (x y : Binary64) : Bool := decide (x.scaled < y.scaled)

/-- The value nearest to `± digits · 10 ^ power`. A magnitude of 10 ^ 310 or more has no finite
value and one below 10 ^ -330 rounds to zero, so neither power is ever computed. -/
def ofDecimal? (negative : Bool) (digits : Nat) (power : Int) : Option Binary64 :=
  if digits = 0 then some (zero negative) else
  let top : Int := (Nat.toDigits 10 digits).length + power
  if 310 < top then none
  else if top < -330 then some (zero negative)
  else if 0 ≤ power then ofRatio? negative (digits * Nat.pow 10 power.toNat) 1
  else ofRatio? negative digits (Nat.pow 10 (-power).toNat)

end Binary64

end ProvenanceTrail
