import Mathlib.FieldTheory.Finite.Basic
import Mathlib.NumberTheory.LucasPrimality
import Mathlib.Tactic.NormNum.Prime
import ProvenanceTrail.Trust.Curve

/-!
# The orders are prime

The curve is over a field and its group counts multiples modulo a prime, since both orders are prime. A
number is prime when some root has no power equal to one before the exponent that is the number less one;
it is enough to look at the exponents that lack one prime factor (`lucas_primality`). The factors are large
in turn, so that the two orders stand at the end of a table in which every row needs only primes of rows
before it (`prime_of_allHold`). Powers are those of the verifier, which repeated squaring makes short
(`power_eq`).
-/

namespace ProvenanceTrail.Curve

/-- Repeated squaring computes powers. -/
theorem power_eq (m base exponent : Nat) : power m base exponent = base ^ exponent % m := by
  fun_induction power m base exponent with
  | case1 => rw [pow_zero]
  | case2 base exponent _ half hodd ih =>
    have hhalf : half = base ^ (2 * (exponent / 2)) % m :=
      ih.trans (by rw [← Nat.pow_mod, pow_mul, sq])
    rw [hhalf, Nat.mod_mul_mod, ← pow_succ]
    congr 2
    omega
  | case3 base exponent _ half heven ih =>
    have hhalf : half = base ^ (2 * (exponent / 2)) % m :=
      ih.trans (by rw [← Nat.pow_mod, pow_mul, sq])
    rw [hhalf]
    congr 2
    omega

/-- A number, a root modulo it, and the factors of the number less one. -/
structure PrimitiveRoot where
  modulus : Nat
  root : Nat
  factors : List Nat

namespace PrimitiveRoot

variable {known : List Nat} {r : PrimitiveRoot}

/-- Whether the factors are known ones whose product is the modulus less one, and the root has no power
equal to one at an exponent that lacks one of them. -/
def holds (known : List Nat) (r : PrimitiveRoot) : Bool :=
  2 ≤ r.modulus && r.factors.all known.contains && r.factors.prod == r.modulus - 1 &&
    power r.modulus r.root (r.modulus - 1) == 1 &&
    r.factors.all fun q => power r.modulus r.root ((r.modulus - 1) / q) != 1

/-- A power is one just if it is computed as one. -/
theorem natCast_pow_eq_one_iff {m : Nat} (hm : 2 ≤ m) (a n : Nat) :
    (a : ZMod m) ^ n = 1 ↔ power m a n = 1 := by
  rw [power_eq, ← Nat.cast_pow, ← Nat.cast_one, ZMod.natCast_eq_natCast_iff',
    Nat.mod_eq_of_lt (show 1 < m by omega)]

/-- A number with a primitive root is prime. -/
theorem prime_of_holds (hknown : ∀ q ∈ known, q.Prime) (h : r.holds known = true) :
    r.modulus.Prime := by
  simp only [holds, Bool.and_eq_true, decide_eq_true_eq, beq_iff_eq, List.all_eq_true, bne_iff_ne,
    List.contains_iff_mem] at h
  obtain ⟨⟨⟨⟨htwo, hfactors⟩, hprod⟩, hone⟩, hlacking⟩ := h
  refine lucas_primality r.modulus r.root ((natCast_pow_eq_one_iff htwo _ _).2 hone) ?_
  intro q hq hdvd
  -- A prime that divides the product of the factors is one of them.
  have hmem : q ∈ r.factors := by
    rw [← hprod] at hdvd
    obtain ⟨p, hp, hqp⟩ := (Prime.dvd_prod_iff hq.prime).1 hdvd
    rwa [(Nat.prime_dvd_prime_iff_eq hq (hknown p (hfactors p hp))).1 hqp]
  exact (natCast_pow_eq_one_iff htwo _ _).not.2 (hlacking q hmem)

/-- Whether the rows of a table hold, each with the moduli of the rows before it as known primes. -/
def allHold : List Nat → List PrimitiveRoot → Bool
  | _, [] => true
  | known, r :: rows => r.holds known && allHold (r.modulus :: known) rows

/-- The moduli of a table that holds are prime. -/
theorem prime_of_allHold {rows : List PrimitiveRoot} (hknown : ∀ q ∈ known, q.Prime)
    (h : allHold known rows = true) : ∀ p ∈ rows.map modulus, p.Prime := by
  induction rows generalizing known with
  | nil => simp
  | cons r rows ih =>
    obtain ⟨hr, hrows⟩ := Bool.and_eq_true_iff.1 h
    have hprime := prime_of_holds hknown hr
    rw [List.map_cons, List.forall_mem_cons]
    exact ⟨hprime, ih (List.forall_mem_cons.2 ⟨hprime, hknown⟩) hrows⟩

/-- The small primes that the table starts from. -/
def small : List Nat :=
  [2, 3, 5, 7, 11, 17, 19, 23, 29, 31, 41, 43, 53, 71, 107, 127, 131, 173, 197, 229, 257, 263, 311, 313,
    337, 373, 641, 661, 1201, 1297, 1531, 2411, 3023, 3407, 3677, 3769, 4349, 16879, 17449, 18169, 38189,
    65537]

/-- The small numbers of the table are prime. -/
theorem prime_of_mem_small : ∀ q ∈ small, q.Prime := by
  simp only [small, List.forall_mem_cons, List.not_mem_nil, false_implies, implies_true, and_true]
  norm_num

/-- Primes above these, up to the order of the group and the order of the field. -/
def table : List PrimitiveRoot :=
  [⟨78283, 3, [2, 3, 3, 4349]⟩,
    ⟨104471, 11, [2, 5, 31, 337]⟩,
    ⟨126241, 7, [2, 2, 2, 2, 2, 3, 5, 263]⟩,
    ⟨155317, 5, [2, 2, 3, 7, 43, 43]⟩,
    ⟨490463, 14, [2, 7, 53, 661]⟩,
    ⟨704251, 2, [2, 3, 3, 5, 5, 5, 313]⟩,
    ⟨3969899, 2, [2, 19, 104471]⟩,
    ⟨6700417, 5, [2, 2, 2, 2, 2, 2, 2, 3, 17449]⟩,
    ⟨9350987, 2, [2, 17, 229, 1201]⟩,
    ⟨187019741, 2, [2, 2, 5, 9350987]⟩,
    ⟨191039911, 3, [2, 3, 5, 41, 155317]⟩,
    ⟨204061199, 11, [2, 11, 23, 107, 3769]⟩,
    ⟨311245691, 2, [2, 5, 7, 17, 29, 29, 311]⟩,
    ⟨622491383, 5, [2, 311245691]⟩,
    ⟨34282281433, 17, [2, 2, 2, 3, 7, 204061199]⟩,
    ⟨66417393611, 6, [2, 5, 53, 173, 197, 3677]⟩,
    ⟨1002328039319, 19, [2, 126241, 3969899]⟩,
    ⟨11290956913871, 13, [2, 5, 17, 66417393611]⟩,
    ⟨46076956964474543, 5, [2, 23, 18169, 78283, 704251]⟩,
    ⟨208150935158385979, 2, [2, 3, 11, 43, 127, 3023, 191039911]⟩,
    ⟨2624747550333869278416773953, 7, [2, 2, 2, 2, 2, 2, 3, 3, 1297, 16879, 208150935158385979]⟩,
    ⟨774023187263532362759620327192479577272145303, 3,
      [2, 3, 3, 2411, 34282281433, 11290956913871, 46076956964474543]⟩,
    ⟨835945042244614951780389953367877943453916927241, 11,
      [2, 2, 2, 3, 3, 3, 5, 774023187263532362759620327192479577272145303]⟩,
    ⟨groupOrder, 7, [2, 2, 2, 2, 3, 71, 131, 373, 3407, 17449, 38189, 187019741, 622491383,
      1002328039319, 2624747550333869278416773953]⟩,
    ⟨fieldOrder, 6, [2, 3, 5, 5, 17, 257, 641, 1531, 65537, 490463, 6700417,
      835945042244614951780389953367877943453916927241]⟩]

/-- Every row of the table holds. -/
theorem allHold_table : allHold small table = true := by decide +kernel

end PrimitiveRoot

open PrimitiveRoot

/-- The order of the field is prime. -/
theorem prime_fieldOrder : fieldOrder.Prime :=
  prime_of_allHold prime_of_mem_small allHold_table _ (by simp [table])

/-- The order of the group is prime. -/
theorem prime_groupOrder : groupOrder.Prime :=
  prime_of_allHold prime_of_mem_small allHold_table _ (by simp [table])

instance : Fact fieldOrder.Prime := ⟨prime_fieldOrder⟩

instance : Fact groupOrder.Prime := ⟨prime_groupOrder⟩

/-- The inverse modulo a prime is that of the field. -/
theorem natCast_inverse {p : Nat} [Fact p.Prime] (hp : 2 < p) (a : Nat) :
    ((inverse p a : Nat) : ZMod p) = (a : ZMod p)⁻¹ := by
  rw [inverse, power_eq, ZMod.natCast_mod, Nat.cast_pow]
  rcases eq_or_ne (a : ZMod p) 0 with ha | ha
  · rw [ha, inv_zero, zero_pow (by omega)]
  · refine eq_inv_of_mul_eq_one_left ?_
    rw [← pow_succ, show p - 2 + 1 = p - 1 by omega, ZMod.pow_card_sub_one_eq_one ha]

end ProvenanceTrail.Curve
