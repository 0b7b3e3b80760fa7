import ProvenanceTrail.Digest.Bytes
/-!
# The curve P-256

The points of y² = x³ − 3x + b over a prime field, with the addition that makes them a group of prime
order. Points are kept as triples that stand for (x / z², y / z³), so that adding needs no division;
z = 0 stands for the neutral element.
-/

namespace ProvenanceTrail.Curve

/-- The order of the field. -/
def fieldOrder : Nat := 0xFFFFFFFF00000001000000000000000000000000FFFFFFFFFFFFFFFFFFFFFFFF

/-- The order of the group. -/
def groupOrder : Nat := 0xFFFFFFFF00000000FFFFFFFFFFFFFFFFBCE6FAADA7179E84F3B9CAC2FC632551

/-- The constant term of the curve. -/
def constant : Nat := 0x5AC635D8AA3A93E7B3EBBD55769886BC651D06B0CC53B0F63BCE3C3E27D2604B

/-- Powers modulo `m`, by repeated squaring. -/
def power (m base : Nat) (exponent : Nat) : Nat :=
  if h : exponent = 0 then 1 % m
  else
    let half := power m (base * base % m) (exponent / 2)
    if exponent % 2 = 1 then half * base % m else half
termination_by exponent
decreasing_by omega

/-- The inverse modulo a prime. -/
def inverse (m a : Nat) : Nat := power m a (m - 2)

/-- The difference modulo the order of the field. -/
def sub (a b : Nat) : Nat := (a + (fieldOrder - b % fieldOrder)) % fieldOrder

/-- The product modulo the order of the field. -/
def mul (a b : Nat) : Nat := a * b % fieldOrder

/-- A point, as a triple. -/
structure Point where
  x : Nat
  y : Nat
  z : Nat
deriving DecidableEq, Repr

namespace Point

/-- The neutral element. -/
def neutral : Point := ⟨1, 1, 0⟩

/-- The point with given coordinates. -/
def ofAffine (x y : Nat) : Point := ⟨x, y, 1⟩

/-- The generator of the group. -/
def generator : Point :=
  ofAffine 0x6B17D1F2E12C4247F8BCE6E563A440F277037D812DEB33A0F4A13945D898C296
    0x4FE342E2FE1A7F9B8EE7EB4A7C0F9E162BCE33576B315ECECBB6406837BF51F5

/-- Twice a point. -/
def double (p : Point) : Point :=
  if p.z = 0 || p.y = 0 then neutral
  else
    let yy := mul p.y p.y
    let s := 4 * mul p.x yy
    let zz := mul p.z p.z
    let m := 3 * mul (sub p.x zz) (p.x + zz)
    let x := sub (m * m) (2 * s)
    ⟨x, sub (m * sub s x) (8 * mul yy yy), mul 2 (p.y * p.z)⟩

/-- The sum of two points. -/
def add (p q : Point) : Point :=
  if p.z = 0 then q
  else if q.z = 0 then p
  else
    let zp := mul p.z p.z
    let zq := mul q.z q.z
    let u := mul p.x zq
    let s := mul p.y (zq * q.z)
    let h := sub (mul q.x zp) u
    let r := sub (mul q.y (zp * p.z)) s
    if h = 0 then if r = 0 then double p else neutral
    else
      let hh := mul h h
      let hhh := mul h hh
      let v := mul u hh
      let x := sub (r * r) (hhh + 2 * v)
      ⟨x, sub (r * sub v x) (s * hhh), mul h (p.z * q.z)⟩

/-- A multiple of a point, by repeated doubling. -/
def times (p : Point) (n : Nat) : Point :=
  if h : n = 0 then neutral
  else
    let half := times (double p) (n / 2)
    if n % 2 = 1 then add p half else half
termination_by n
decreasing_by omega

/-- The coordinates of a point; the neutral element has none. -/
def affine? (p : Point) : Option (Nat × Nat) :=
  if p.z = 0 then none
  else
    let i := inverse fieldOrder p.z
    let ii := mul i i
    some (mul p.x ii, mul p.y (ii * i))

/-- The point of given abscissa whose ordinate is odd or even as asked. -/
def lift? (x : Nat) (odd : Bool) : Option Point :=
  if fieldOrder ≤ x then none
  else
    let square := (mul x (sub (x * x) 3) + constant) % fieldOrder
    let root := power fieldOrder square ((fieldOrder + 1) / 4)
    if mul root root ≠ square then none
    else some (ofAffine x (if (root % 2 == 1) == odd then root else (fieldOrder - root) % fieldOrder))

/-- Reads a point: a byte that says how it is written, the abscissa, and the ordinate unless the first
byte only tells whether it is odd. -/
def ofBytes? : List UInt8 → Option Point
  | [] => none
  | form :: bytes =>
    if form == 4 && bytes.length == 64 then
      let y := Digest.toNat (bytes.drop 32)
      match lift? (Digest.toNat (bytes.take 32)) (y % 2 == 1) with
      | some p => if p.y = y then some p else none
      | none => none
    else if (form == 2 || form == 3 || form == 5) && bytes.length == 32 then
      lift? (Digest.toNat bytes) (form == 3)
    else none

end Point

end ProvenanceTrail.Curve
