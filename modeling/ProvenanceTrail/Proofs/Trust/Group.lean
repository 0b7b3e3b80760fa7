import Mathlib.AlgebraicGeometry.EllipticCurve.Affine.Point
import Mathlib.Tactic.LinearCombination
import ProvenanceTrail.Proofs.Trust.Orders

/-!
# Triples stand for points of the group

The verifier adds triples of numbers, `(x, y, z)` for the point `(x / z², y / z³)`, so that it divides only
once, at the end. What it should compute is the group of the curve: the solutions of `y² = x³ − 3x + b` over
the field and a neutral element, added by lines through them. The two agree: a triple stands for one
point (`Point.Stands`), the double of the triple for twice the point (`Point.Stands.double`), the sum of two
triples for the sum (`Point.Stands.add`), and hence a multiple of it for the multiple
(`Point.Stands.times`). In each case the third number is zero exactly when the point is neutral, which is
what the verifier tests.
-/

namespace ProvenanceTrail.Curve

/-- The curve, as an equation over the field. -/
def weierstrass : WeierstrassCurve.Affine (ZMod fieldOrder) := ⟨0, 0, 0, -3, constant⟩

/-- The group of its points. -/
abbrev Group : Type := weierstrass.Point

variable {x y : ZMod fieldOrder}

/-- The equation of the curve, in the short form. -/
theorem equation_iff : weierstrass.Equation x y ↔ y ^ 2 = x ^ 3 - 3 * x + constant := by
  simp [WeierstrassCurve.Affine.equation_iff, weierstrass, sub_eq_add_neg]

/-- The curve has no singular point. -/
theorem discriminant_ne_zero : weierstrass.Δ ≠ 0 := by
  have hcast : weierstrass.Δ = ((1728 - 432 * (constant : ℤ) ^ 2 : ℤ) : ZMod fieldOrder) := by
    simp only [WeierstrassCurve.Δ, WeierstrassCurve.b₂, WeierstrassCurve.b₄, WeierstrassCurve.b₆,
      WeierstrassCurve.b₈, weierstrass]
    push_cast
    ring
  rw [hcast, ne_eq, ZMod.intCast_zmod_eq_zero_iff_dvd]
  decide +kernel

/-- Every solution of the equation is a point of the group. -/
theorem nonsingular_iff : weierstrass.Nonsingular x y ↔ y ^ 2 = x ^ 3 - 3 * x + constant := by
  rw [← WeierstrassCurve.Affine.equation_iff_nonsingular_of_Δ_ne_zero discriminant_ne_zero, equation_iff]

/-! ## The field -/

theorem natCast_mul (a b : Nat) : ((mul a b : Nat) : ZMod fieldOrder) = a * b := by
  rw [mul, ZMod.natCast_mod, Nat.cast_mul]

theorem natCast_sub (a b : Nat) : ((sub a b : Nat) : ZMod fieldOrder) = a - b := by
  rw [sub, ZMod.natCast_mod, Nat.cast_add, Nat.cast_sub (Nat.mod_lt b (by decide)).le, ZMod.natCast_mod,
    ZMod.natCast_self]
  ring

theorem mul_lt (a b : Nat) : mul a b < fieldOrder := Nat.mod_lt _ (by decide)

theorem sub_lt (a b : Nat) : sub a b < fieldOrder := Nat.mod_lt _ (by decide)

/-- A number below the order is zero if it is zero in the field. -/
theorem natCast_eq_zero_iff {n : Nat} (h : n < fieldOrder) : (n : ZMod fieldOrder) = 0 ↔ n = 0 := by
  rw [ZMod.natCast_eq_zero_iff]
  exact ⟨fun hdvd => Nat.eq_zero_of_dvd_of_lt hdvd h, fun hzero => hzero ▸ dvd_zero _⟩

/-- The field is not of characteristic two. -/
theorem two_ne_zero : (2 : ZMod fieldOrder) ≠ 0 := by
  rw [← Nat.cast_ofNat, ne_eq, natCast_eq_zero_iff (by decide)]
  decide

namespace Point

variable {p q : Point} {P Q : Group}

/-- The point that a triple stands for. -/
inductive Stands (p : Point) : Group → Prop
  | neutral : p.z = 0 → Stands p 0
  | affine {x y : ZMod fieldOrder} (h : weierstrass.Nonsingular x y) : p.z < fieldOrder → p.z ≠ 0 →
      (p.x : ZMod fieldOrder) = x * p.z ^ 2 → (p.y : ZMod fieldOrder) = y * p.z ^ 3 →
      Stands p (.some x y h)

/-- The neutral point stands for zero. -/
theorem stands_neutral : neutral.Stands 0 := .neutral rfl

/-- A triple whose third number is not zero in the field. -/
theorem Stands.of_natCast_ne_zero (h : weierstrass.Nonsingular x y) (hlt : p.z < fieldOrder)
    (hz : (p.z : ZMod fieldOrder) ≠ 0) (hx : (p.x : ZMod fieldOrder) = x * p.z ^ 2)
    (hy : (p.y : ZMod fieldOrder) = y * p.z ^ 3) : p.Stands (.some x y h) :=
  .affine h hlt (fun hzero => hz (by rw [hzero, Nat.cast_zero])) hx hy

/-- Coordinates on the curve stand for their point. -/
theorem stands_ofAffine {a b : Nat} (h : weierstrass.Nonsingular (a : ZMod fieldOrder) b) :
    (ofAffine a b).Stands (.some a b h) :=
  .affine h (show 1 < fieldOrder by decide) one_ne_zero (by simp [ofAffine]) (by simp [ofAffine])

/-! ## Doubling -/

/-- The tangent at a point, cleared of its denominator. -/
theorem slope_tangent_mul (hy : y ≠ 0) (h : y ≠ weierstrass.negY x y) :
    weierstrass.slope x x y y * (2 * y) = 3 * (x ^ 2 - 1) := by
  rw [WeierstrassCurve.Affine.slope_of_Y_ne rfl h]
  simp only [WeierstrassCurve.Affine.negY, weierstrass]
  have htwo : y - (-y - 0 * x - 0) = 2 * y := by ring
  rw [htwo, div_mul_cancel₀ _ (mul_ne_zero two_ne_zero hy)]
  ring

/-- Doubling stands for adding a point to itself. -/
theorem Stands.double (hp : p.Stands P) : p.double.Stands (P + P) := by
  cases hp with
  | neutral hz =>
    rw [Point.double, hz, add_zero]
    exact stands_neutral
  | @affine x y h hlt hzero hx hy =>
    have hz : (p.z : ZMod fieldOrder) ≠ 0 := mt (natCast_eq_zero_iff hlt).1 hzero
    by_cases hyzero : y = 0
    · -- The tangent is vertical.
      have hsum : WeierstrassCurve.Affine.Point.some x y h + .some x y h = 0 :=
        WeierstrassCurve.Affine.Point.add_self_of_Y_eq (by simp [weierstrass, hyzero])
      have hpy : (p.y : ZMod fieldOrder) = 0 := by rw [hy, hyzero, zero_mul]
      rw [hsum, Point.double]
      split_ifs
      · exact stands_neutral
      · refine .neutral ((natCast_eq_zero_iff (mul_lt _ _)).1 ?_)
        rw [natCast_mul, Nat.cast_mul, hpy, zero_mul, mul_zero]
    · have hne : y ≠ weierstrass.negY x y := by
        intro hy'
        have htwo : 2 * y = 0 := by
          simp only [WeierstrassCurve.Affine.negY, weierstrass] at hy'
          linear_combination hy'
        exact (mul_ne_zero two_ne_zero hyzero) htwo
      have hslope := slope_tangent_mul hyzero hne
      have hpy : p.y ≠ 0 := by
        intro h0
        rw [h0, Nat.cast_zero] at hy
        exact mul_ne_zero hyzero (pow_ne_zero 3 hz) hy.symm
      rw [WeierstrassCurve.Affine.Point.add_self_of_Y_ne hne, Point.double, if_neg (by simp [hzero, hpy])]
      have hnewz : ((mul 2 (p.y * p.z) : Nat) : ZMod fieldOrder) = 2 * y * p.z ^ 4 := by
        rw [natCast_mul, Nat.cast_mul, hy, Nat.cast_ofNat]
        ring
      -- The slope of the tangent, scaled by the third number of the double.
      have hm : ((3 * mul (sub p.x (mul p.z p.z)) (p.x + mul p.z p.z) : Nat) : ZMod fieldOrder) =
          weierstrass.slope x x y y * (2 * y * p.z ^ 4) := by
        push_cast [natCast_mul, natCast_sub, hx]
        linear_combination (-p.z ^ 4) * hslope
      refine .of_natCast_ne_zero _ (mul_lt _ _) ?_ ?_ ?_
      · rw [hnewz]
        exact mul_ne_zero (mul_ne_zero two_ne_zero hyzero) (pow_ne_zero 4 hz)
      · simp only [hnewz, natCast_sub, Nat.cast_mul (3 * mul _ _), hm]
        push_cast [natCast_mul, hx, hy, WeierstrassCurve.Affine.addX, weierstrass]
        ring
      · simp only [hnewz, natCast_sub, Nat.cast_mul (3 * mul _ _), hm]
        push_cast [natCast_mul, natCast_sub, hx, hy, WeierstrassCurve.Affine.addY,
          WeierstrassCurve.Affine.negY, WeierstrassCurve.Affine.negAddY, WeierstrassCurve.Affine.addX,
          weierstrass]
        ring

/-! ## Adding -/

/-- The line through two points, cleared of its denominator. -/
theorem slope_secant_mul {x' : ZMod fieldOrder} (h : x ≠ x') (y y' : ZMod fieldOrder) :
    weierstrass.slope x x' y y' * (x - x') = y - y' := by
  rw [WeierstrassCurve.Affine.slope_of_X_ne h, div_mul_cancel₀ _ (sub_ne_zero.2 h)]

/-- The difference of the abscissas of two points, brought to one denominator. -/
def run (p q : Point) : Nat := sub (mul q.x (mul p.z p.z)) (mul p.x (mul q.z q.z))

/-- The difference of the ordinates of two points, brought to one denominator. -/
def rise (p q : Point) : Nat :=
  sub (mul q.y (mul p.z p.z * p.z)) (mul p.y (mul q.z q.z * q.z))

/-- The sum of two points on a line that is not vertical. -/
def secantSum (p q : Point) : Point :=
  let square := mul (run p q) (run p q)
  let cube := mul (run p q) square
  let v := mul (mul p.x (mul q.z q.z)) square
  let x := sub (rise p q * rise p q) (cube + 2 * v)
  ⟨x, sub (rise p q * sub v x) (mul p.y (mul q.z q.z * q.z) * cube), mul (run p q) (p.z * q.z)⟩

/-- Two points that are not neutral are added by the secant, unless their abscissas agree. -/
theorem add_eq (hp : p.z ≠ 0) (hq : q.z ≠ 0) : p.add q =
    if run p q = 0 then if rise p q = 0 then p.double else Point.neutral else secantSum p q := by
  rw [Point.add, if_neg hp, if_neg hq]
  rfl

section Sum

variable {x' y' : ZMod fieldOrder}

/-- The run is the difference of the abscissas up to the common denominator. -/
theorem natCast_run (hx : (p.x : ZMod fieldOrder) = x * p.z ^ 2)
    (hx' : (q.x : ZMod fieldOrder) = x' * q.z ^ 2) :
    (run p q : ZMod fieldOrder) = (x' - x) * (p.z * q.z) ^ 2 := by
  push_cast [run, natCast_mul, natCast_sub, hx, hx']
  ring

/-- The rise is the difference of the ordinates up to the common denominator. -/
theorem natCast_rise (hy : (p.y : ZMod fieldOrder) = y * p.z ^ 3)
    (hy' : (q.y : ZMod fieldOrder) = y' * q.z ^ 3) :
    (rise p q : ZMod fieldOrder) = (y' - y) * (p.z * q.z) ^ 3 := by
  push_cast [rise, natCast_mul, natCast_sub, hy, hy']
  ring

/-- The sum of points with different abscissas. -/
theorem stands_secantSum {h : weierstrass.Nonsingular x y} {h' : weierstrass.Nonsingular x' y'}
    (hz : (p.z * q.z : ZMod fieldOrder) ≠ 0) (hx : (p.x : ZMod fieldOrder) = x * p.z ^ 2)
    (hy : (p.y : ZMod fieldOrder) = y * p.z ^ 3) (hx' : (q.x : ZMod fieldOrder) = x' * q.z ^ 2)
    (hy' : (q.y : ZMod fieldOrder) = y' * q.z ^ 3) (hne : x ≠ x') :
    (secantSum p q).Stands (.some x y h + .some x' y' h') := by
  rw [WeierstrassCurve.Affine.Point.add_of_X_ne hne]
  have hrun := natCast_run hx hx'
  have hnewz : ((mul (run p q) (p.z * q.z) : Nat) : ZMod fieldOrder) = (x' - x) * (p.z * q.z) ^ 3 := by
    rw [natCast_mul, Nat.cast_mul, hrun]
    ring
  -- The slope of the line, scaled by the third number of the sum.
  have hrise : (rise p q : ZMod fieldOrder) =
      weierstrass.slope x x' y y' * ((x' - x) * (p.z * q.z) ^ 3) := by
    rw [natCast_rise hy hy']
    linear_combination (p.z * q.z) ^ 3 * slope_secant_mul hne y y'
  refine .of_natCast_ne_zero _ (mul_lt _ _) ?_ ?_ ?_
  · rw [secantSum, hnewz]
    exact mul_ne_zero (sub_ne_zero.2 hne.symm) (pow_ne_zero 3 hz)
  · simp only [secantSum, hnewz]
    push_cast [natCast_mul, natCast_sub, hrun, hrise, hx, WeierstrassCurve.Affine.addX, weierstrass]
    ring
  · simp only [secantSum, hnewz]
    push_cast [natCast_mul, natCast_sub, hrun, hrise, hx, hy, WeierstrassCurve.Affine.addY,
      WeierstrassCurve.Affine.negY, WeierstrassCurve.Affine.negAddY, WeierstrassCurve.Affine.addX,
      weierstrass]
    ring

end Sum

/-- Addition stands for that of the group. -/
theorem Stands.add (hp : p.Stands P) (hq : q.Stands Q) : (p.add q).Stands (P + Q) := by
  cases hp with
  | neutral hz =>
    rw [Point.add, if_pos hz, zero_add]
    exact hq
  | @affine x y h hlt hzero hx hy =>
    cases hq with
    | neutral hz =>
      rw [Point.add, if_neg hzero, if_pos hz, add_zero]
      exact .affine h hlt hzero hx hy
    | @affine x' y' h' hlt' hzero' hx' hy' =>
      have hz : (p.z * q.z : ZMod fieldOrder) ≠ 0 :=
        mul_ne_zero (mt (natCast_eq_zero_iff hlt).1 hzero) (mt (natCast_eq_zero_iff hlt').1 hzero')
      -- over the common denominator, run and rise vanish just if the coordinates agree
      have hrun : run p q = 0 ↔ x = x' := by
        rw [← natCast_eq_zero_iff (show run p q < fieldOrder from sub_lt _ _), natCast_run hx hx',
          mul_eq_zero_iff_right (pow_ne_zero 2 hz), sub_eq_zero, eq_comm]
      have hrise : rise p q = 0 ↔ y = y' := by
        rw [← natCast_eq_zero_iff (show rise p q < fieldOrder from sub_lt _ _), natCast_rise hy hy',
          mul_eq_zero_iff_right (pow_ne_zero 3 hz), sub_eq_zero, eq_comm]
      rw [add_eq hzero hzero']
      split_ifs with hxx hyy
      · obtain rfl := hrun.1 hxx
        obtain rfl := hrise.1 hyy
        exact Stands.double (.affine h hlt hzero hx hy)
      · -- one abscissa and two ordinates: the points are opposite
        obtain rfl := hrun.1 hxx
        have hopposite : y = weierstrass.negY x y' :=
          (WeierstrassCurve.Affine.Y_eq_of_X_eq h.1 h'.1 rfl).resolve_left (mt hrise.2 hyy)
        rw [WeierstrassCurve.Affine.Point.add_of_Y_eq rfl hopposite]
        exact stands_neutral
      · exact stands_secantSum hz hx hy hx' hy' (mt hrun.2 hxx)

/-! ## Multiples -/

/-- The ladder stands for the multiple. -/
theorem Stands.times (hp : p.Stands P) (n : Nat) : (p.times n).Stands (n • P) := by
  induction p, n using Point.times.induct generalizing P with
  | case1 p =>
    rw [Point.times, dif_pos rfl, zero_nsmul]
    exact stands_neutral
  | case2 p n hn hodd ih =>
    have hsplit : n • P = P + (n / 2) • (P + P) := by
      rw [← two_nsmul, ← mul_nsmul, ← succ_nsmul']
      congr 1
      omega
    rw [Point.times, dif_neg hn, hsplit]
    simp only [hodd, if_true]
    exact hp.add (ih hp.double)
  | case3 p n hn heven ih =>
    have hsplit : n • P = (n / 2) • (P + P) := by
      rw [← two_nsmul, ← mul_nsmul]
      congr 1
      omega
    rw [Point.times, dif_neg hn, hsplit]
    simp only [heven, if_false]
    exact ih hp.double

/-! ## Coordinates -/

/-- The neutral element has no coordinates. -/
theorem Stands.affine?_eq_none (hp : p.Stands 0) : p.affine? = none := by
  cases hp with
  | neutral hz => rw [affine?, if_pos hz]

/-- The coordinates of any other point are numbers below the order of the field. -/
theorem Stands.affine?_eq_some {h : weierstrass.Nonsingular x y} (hp : p.Stands (.some x y h)) :
    p.affine? = some (x.val, y.val) := by
  cases hp with
  | affine h hlt hzero hx hy =>
    have hz : (p.z : ZMod fieldOrder) ≠ 0 := mt (natCast_eq_zero_iff hlt).1 hzero
    have hinverse := natCast_inverse (p := fieldOrder) (by decide) p.z
    have hval {n : Nat} {a : ZMod fieldOrder} (hn : n < fieldOrder) (hcast : (n : ZMod fieldOrder) = a) :
        n = a.val := by rw [← hcast, ZMod.val_natCast, Nat.mod_eq_of_lt hn]
    rw [affine?, if_neg hzero]
    refine congrArg some (Prod.ext (hval (mul_lt _ _) ?_) (hval (mul_lt _ _) ?_))
    · push_cast [natCast_mul, hinverse, hx]
      field_simp
    · push_cast [natCast_mul, hinverse, hy]
      field_simp

end Point

end ProvenanceTrail.Curve
