import Mathlib.Data.Nat.Bitwise
import Mathlib.Data.Nat.Size
import Mathlib.FieldTheory.Finite.Extension
import Mathlib.Tactic

/-!
# Numbers as polynomials over two elements

The bits of a number are the coefficients of a polynomial over `ZMod 2`. Exclusive or is
the sum, a shift is the product with a power of `X`, and a bound by a power of two is a
bound of the degree. A monic polynomial of degree `n` is irreducible if it has no factor
in common with `X ^ 2 ^ d - X` for any `d` up to `n / 2`.
-/

namespace SketchMonitor
namespace BinaryPolynomials

open Polynomial

/-- The polynomial whose coefficients are the bits of a number. -/
noncomputable def poly (a : ℕ) : (ZMod 2)[X] :=
  ∑ i ∈ Finset.range a.size, if a.testBit i then X ^ i else 0

theorem testBit_of_size_le {a i : ℕ} (h : a.size ≤ i) : a.testBit i = false :=
  Nat.testBit_lt_two_pow ((Nat.lt_size_self a).trans_le (Nat.pow_le_pow_right Nat.two_pos h))

theorem coeff_poly (a i : ℕ) : (poly a).coeff i = if a.testBit i then 1 else 0 := by
  have hterm (j : ℕ) : (if a.testBit j then (X : (ZMod 2)[X]) ^ j else 0).coeff i =
      if i = j then (if a.testBit j then 1 else 0) else 0 := by
    by_cases hj : a.testBit j
    · rw [if_pos hj, if_pos hj, coeff_X_pow]
    · rw [if_neg hj, if_neg hj, coeff_zero, ite_self]
  rw [poly, finsetSum_coeff, Finset.sum_congr rfl fun j _ => hterm j, Finset.sum_ite_eq]
  by_cases hi : i ∈ Finset.range a.size
  · rw [if_pos hi]
  · rw [if_neg hi, testBit_of_size_le (by simpa using hi)]
    rfl

theorem poly_injective : Function.Injective poly := by
  intro a b h
  refine Nat.eq_of_testBit_eq fun i => ?_
  have hcoeff : (poly a).coeff i = (poly b).coeff i := by rw [h]
  rw [coeff_poly, coeff_poly] at hcoeff
  cases ha : a.testBit i <;> cases hb : b.testBit i <;> simp [ha,hb] at hcoeff ⊢

@[simp] theorem poly_zero : poly 0 = 0 := by simp [poly]

theorem poly_eq_zero {a : ℕ} : poly a = 0 ↔ a = 0 := by
  rw [← poly_zero, poly_injective.eq_iff]

@[simp] theorem poly_xor (a b : ℕ) : poly (a ^^^ b) = poly a + poly b := by
  ext i
  rw [coeff_add, coeff_poly, coeff_poly, coeff_poly, Nat.testBit_xor]
  cases a.testBit i <;> cases b.testBit i <;> decide

/-- The lowest bit and the others. -/
theorem poly_eq_bit (a : ℕ) : poly a = (if a % 2 = 1 then 1 else 0) + X * poly (a / 2) := by
  ext i
  cases i with
  | zero =>
    rw [coeff_poly, coeff_add, coeff_X_mul_zero, Nat.testBit_zero]
    split_ifs <;> simp_all
  | succ i =>
    rw [coeff_poly, coeff_add, coeff_X_mul, coeff_poly, Nat.testBit_succ]
    split_ifs <;> simp [coeff_one]

@[simp] theorem poly_one : poly 1 = 1 := by
  rw [poly_eq_bit]
  simp

theorem poly_shiftLeft (a k : ℕ) : poly (a <<< k) = X ^ k * poly a := by
  ext i
  rw [coeff_X_pow_mul', coeff_poly, Nat.testBit_shiftLeft]
  by_cases hk : k ≤ i
  · rw [if_pos hk, coeff_poly, decide_eq_true hk, Bool.true_and]
  · rw [if_neg hk, decide_eq_false hk, Bool.false_and]
    rfl

theorem lt_two_pow_iff {a n : ℕ} : a < 2 ^ n ↔ (poly a).degree < n := by
  rw [degree_lt_iff_coeff_zero]
  constructor
  · intro h i hi
    rw [coeff_poly, Nat.testBit_lt_two_pow (h.trans_le (Nat.pow_le_pow_right Nat.two_pos hi))]
    rfl
  · intro h
    refine Nat.lt_pow_two_of_testBit a fun i hi => ?_
    have hcoeff := h i hi
    rw [coeff_poly] at hcoeff
    cases hbit : a.testBit i
    · rfl
    · simp [hbit] at hcoeff

theorem lt_of_dvd {a b n : ℕ} (hb : b ≠ 0) (h : poly a ∣ poly b) (hlt : b < 2 ^ n) : a < 2 ^ n :=
  lt_two_pow_iff.mpr ((degree_le_of_dvd h (poly_eq_zero.not.mpr hb)).trans_lt (lt_two_pow_iff.mp hlt))

/-- A number is a monic polynomial whose degree is the place of the highest bit. -/
theorem poly_monic {a n : ℕ} (hsize : a.size = n + 1) :
    (poly a).Monic ∧ (poly a).natDegree = n := by
  have hlt : (poly a).degree < (n+1 : ℕ) := lt_two_pow_iff.mp (hsize ▸ Nat.lt_size_self a)
  have hle : ¬ (poly a).degree < n := by
    rw [← lt_two_pow_iff, ← Nat.size_le, hsize]
    omega
  have hne : poly a ≠ 0 := by
    rintro h
    rw [h, degree_zero] at hle
    exact hle (WithBot.bot_lt_coe n)
  rw [← natDegree_lt_iff_degree_lt hne] at hlt hle
  have hdegree : (poly a).natDegree = n := by omega
  refine ⟨?_,hdegree⟩
  have hlead : (poly a).leadingCoeff ≠ 0 := leadingCoeff_ne_zero.mpr hne
  rw [leadingCoeff, coeff_poly] at hlead
  rw [Monic, leadingCoeff, coeff_poly]
  split_ifs at hlead ⊢ with hbit
  · rfl
  · exact absurd rfl hlead

theorem testBit_of_size {a n : ℕ} (hsize : a.size = n + 1) : a.testBit n = true := by
  obtain ⟨hmonic,hdegree⟩ := poly_monic hsize
  rw [Monic, leadingCoeff, hdegree, coeff_poly] at hmonic
  by_contra hbit
  rw [if_neg hbit] at hmonic
  exact zero_ne_one hmonic

theorem lt_two_pow_of_testBit {a n : ℕ} (ha : a < 2 ^ (n+1)) (hbit : a.testBit n = false) :
    a < 2 ^ n := by
  refine Nat.lt_pow_two_of_testBit a fun i hi => ?_
  rcases hi.eq_or_lt with rfl | hi
  · exact hbit
  · exact Nat.testBit_lt_two_pow (ha.trans_le (Nat.pow_le_pow_right Nat.two_pos hi))

theorem and_one_shiftLeft_ne_zero {a n : ℕ} : a &&& (1 <<< n) ≠ 0 ↔ a.testBit n = true := by
  rw [Nat.one_shiftLeft, Nat.and_two_pow]
  cases a.testBit n <;> simp

/-- Two numbers of one length differ in length from their sum. -/
theorem xor_lt_of_testBit {a b n : ℕ} (ha : a < 2 ^ (n+1)) (hbit : a.testBit n = true)
    (hb : b.size = n + 1) : a ^^^ b < 2 ^ n := by
  refine lt_two_pow_of_testBit (Nat.xor_lt_two_pow ha (Nat.size_le.mp hb.le)) ?_
  rw [Nat.testBit_xor, hbit, testBit_of_size hb, Bool.xor_self]

/-- No element but the one is a unit. -/
theorem eq_one_of_isUnit {a : ℕ} (h : IsUnit (poly a)) : a = 1 := by
  have hconst := eq_C_of_degree_eq_zero (degree_eq_zero_of_isUnit h)
  refine poly_injective ?_
  rw [poly_one, hconst, coeff_poly]
  split_ifs with hbit
  · exact map_one C
  · refine absurd ?_ h.ne_zero
    rw [hconst, coeff_poly, if_neg hbit, map_zero]

/-- The test by the fields of the factors. -/
theorem irreducible_of_isCoprime {p : (ZMod 2)[X]} (hp : p.Monic) (hone : p ≠ 1)
    (h : ∀ d ∈ Finset.Icc 1 (p.natDegree / 2), IsCoprime (X ^ 2 ^ d - X) p) : Irreducible p := by
  rw [hp.irreducible_iff_lt_natDegree_lt hone]
  intro q hq hdegree hdvd
  rw [Finset.mem_Ioc] at hdegree
  obtain ⟨f,hf,hfq⟩ := WfDvdMonoid.exists_irreducible_factor
    (fun hunit => hdegree.1.ne' (natDegree_eq_zero_of_isUnit hunit)) hq.ne_zero
  have hle : f.natDegree ≤ p.natDegree / 2 := (natDegree_le_of_dvd hfq hq.ne_zero).trans hdegree.2
  have hroots : f ∣ X ^ 2 ^ f.natDegree - X := by
    have hcard := (Irreducible.natDegree_dvd_iff_dvd_X_pow_card_pow_sub_X hf (n := f.natDegree)).mp dvd_rfl
    simpa using hcard
  exact hf.not_isUnit ((h f.natDegree (Finset.mem_Icc.mpr ⟨hf.natDegree_pos,hle⟩)).isUnit_of_dvd'
    hroots (hfq.trans hdvd))

end BinaryPolynomials
end SketchMonitor
