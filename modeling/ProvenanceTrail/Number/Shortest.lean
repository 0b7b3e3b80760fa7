import ProvenanceTrail.Number.Binary64
/-!
# The fewest digits that read back

The reals that round to a binary64 value form an interval. Its shortest decimals are found by
testing the value's two neighbours on the grids of 1, 2, … 17 digits in exact arithmetic; the first
grid with a hit wins, and of two hits the nearer.
-/

namespace ProvenanceTrail.Binary64

/-- A decimal `digits · 10 ^ power` without trailing zeros. -/
structure Decimal where
  digits : Nat
  power : Int
deriving DecidableEq, Repr

/-- Twice the numerator of a magnitude over a common denominator, for comparing decimals with the
halfway points around a value: `(lower, value, upper, unit)` with all of them in units of
`1 / unit`. -/
structure Interval where
  lower : Nat
  value : Nat
  upper : Nat
  unit : Nat
  closed : Bool

/-- The interval of reals that round to a non-zero value: up to halfway to each neighbour, ends
included exactly when the mantissa is even. Below a power of two the gap is half as wide. -/
def interval (x : Binary64) : Interval :=
  let narrow := x.mantissa == Nat.pow 2 52 && x.exponent != minExponent
  let up := if 0 ≤ x.exponent then Nat.pow 2 x.exponent.toNat else 1
  let unit := if 0 ≤ x.exponent then 4 else 4 * Nat.pow 2 (-x.exponent).toNat
  let centre := 4 * x.mantissa * up
  { lower := centre - (if narrow then up else 2 * up)
    value := centre
    upper := centre + 2 * up
    unit := unit
    closed := x.mantissa % 2 == 0 }

/-- Numerator and denominator of `10 ^ power`. -/
def powerOfTen (power : Int) : Nat × Nat :=
  if 0 ≤ power then (Nat.pow 10 power.toNat, 1) else (1, Nat.pow 10 (-power).toNat)

/-- Whether `digits · 10 ^ power` rounds to the value of the interval. -/
def Interval.holds (i : Interval) (digits : Nat) (power : Int) : Bool :=
  let (a, b) := powerOfTen power
  let d := digits * a * i.unit
  if i.closed then i.lower * b ≤ d && d ≤ i.upper * b
  else i.lower * b < d && d < i.upper * b

/-- The least `k` with `value < 10 ^ k`, from an estimate that is corrected step by step. -/
def Interval.scale (i : Interval) (estimate : Int) : Nat → Int
  | 0 => estimate
  | fuel + 1 =>
    let below (k : Int) : Bool :=
      let (a, b) := powerOfTen k
      i.value * b < a * i.unit
    if !below estimate then i.scale (estimate + 1) fuel
    else if below (estimate - 1) then i.scale (estimate - 1) fuel
    else estimate

/-- The hit of the grid `10 ^ power`, if it has one. -/
def Interval.hit? (i : Interval) (power : Int) : Option Nat :=
  let (a, b) := powerOfTen power
  let low := i.value * b / (a * i.unit)
  let high := low + 1
  match i.holds low power && low != 0, i.holds high power with
  | true, true =>
    if 2 * (i.value * b) ≤ (low + high) * (a * i.unit) then some low else some high
  | true, false => some low
  | false, true => some high
  | false, false => none

/-- The first grid with a hit, among those of `count`, `count + 1`, … digits. -/
def Interval.search (i : Interval) (scale : Int) (count : Nat) : Nat → Option Decimal
  | 0 => none
  | fuel + 1 =>
    let power := scale - count
    match i.hit? power with
    | some d => some ⟨d, power⟩
    | none => i.search scale (count + 1) fuel

/-- Moves trailing zeros of the digits into the power. -/
def Decimal.strip (d : Decimal) : Nat → Decimal
  | 0 => d
  | fuel + 1 =>
    if d.digits % 10 == 0 && d.digits != 0 then
      Decimal.strip ⟨d.digits / 10, d.power + 1⟩ fuel
    else d

/-- The shortest decimal of the magnitude that reads back, nearest of those; zero is `0 · 10 ^ 0`. -/
def shortest (x : Binary64) : Decimal :=
  if x.mantissa = 0 then ⟨0, 0⟩ else
  let i := x.interval
  let bits : Int := (x.mantissa.log2 : Int) + x.exponent
  let scale := i.scale (bits * 30103 / 100000 + 1) 4
  let exact : Decimal :=
    if 0 ≤ x.exponent then ⟨x.mantissa * Nat.pow 2 x.exponent.toNat, 0⟩
    else ⟨x.mantissa * Nat.pow 5 (-x.exponent).toNat, x.exponent⟩
  ((i.search scale 1 17).getD exact).strip 400

end ProvenanceTrail.Binary64
