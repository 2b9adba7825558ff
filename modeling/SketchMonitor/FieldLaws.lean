import SketchMonitor.GaloisField

/-!
# GF(2^n) as a quotient ring

`elem` takes a word to its residue. On words of `n` bits it is a bijection, and it carries
the operations of the code over to the ring. `ExtendedEuclid` finds the common divisors
and cofactors for them, so `Inv` inverts every word that is prime to the modulus. With
the table this is every nonzero element for all `n` but 29.
-/

namespace SketchMonitor
namespace GaloisField

open Polynomial BinaryPolynomials

variable (F : GaloisField)

theorem size_prim : F.prim.size = F.n + 1 := by
  obtain ⟨n,hone,hle⟩ := F
  have htable : ∀ n ∈ List.range 33, 1 ≤ n → 2^n ≤ primTable.getD n 0 ∧ primTable.getD n 0 < 2^(n+1) := by
    decide +kernel
  obtain ⟨hlow,hhigh⟩ := htable n (List.mem_range.mpr (by omega)) hone
  exact le_antisymm (Nat.size_le.mpr hhigh) (Nat.lt_size.mpr hlow)

theorem prim_lt : F.prim < 2^(F.n+1) := Nat.size_le.mp F.size_prim.le

theorem poly_prim : (poly F.prim).Monic ∧ (poly F.prim).natDegree = F.n := poly_monic F.size_prim

/-- The ring of the residues. -/
abbrev Residues : Type := AdjoinRoot (poly F.prim)

/-- The residue of a word. -/
noncomputable def elem (a : ℕ) : F.Residues := AdjoinRoot.mk _ (poly a)

/-- The residue of `X`. -/
noncomputable def root : F.Residues := AdjoinRoot.root _

@[simp] theorem elem_zero : F.elem 0 = 0 := by rw [elem, poly_zero, map_zero]

@[simp] theorem elem_one : F.elem 1 = 1 := by rw [elem, poly_one, map_one]

@[simp] theorem elem_xor (a b : ℕ) : F.elem (a ^^^ b) = F.elem a + F.elem b := by
  rw [elem, poly_xor, map_add]
  rfl

@[simp] theorem elem_prim : F.elem F.prim = 0 := AdjoinRoot.mk_self

theorem elem_eq_zero_iff {a : ℕ} : F.elem a = 0 ↔ poly F.prim ∣ poly a := AdjoinRoot.mk_eq_zero

theorem elem_sub (a b : ℕ) : F.elem (sub a b) = F.elem a - F.elem b := by
  have hpoly : poly (sub a b) = poly a - poly b := by
    rw [sub, poly_xor, CharTwo.sub_eq_add]
  rw [elem, hpoly, map_sub]
  rfl

/-- Different words of `n` bits have different residues. -/
theorem elem_injOn : Set.InjOn F.elem {a | a < 2^F.n} := by
  intro a ha b hb h
  have hzero : F.elem (a ^^^ b) = 0 := by
    have hsub := F.elem_sub a b
    rwa [h, sub_self] at hsub
  have hlt : (poly (a ^^^ b)).degree < (poly F.prim).degree := by
    rw [degree_eq_natDegree F.poly_prim.1.ne_zero, F.poly_prim.2]
    exact lt_two_pow_iff.mp (Nat.xor_lt_two_pow ha hb)
  have hpoly := eq_zero_of_dvd_of_degree_lt ((F.elem_eq_zero_iff).mp hzero) hlt
  rw [poly_xor, CharTwo.add_eq_zero] at hpoly
  exact poly_injective hpoly

/-- A word of one bit more, with the highest bit taken away by the modulus. -/
theorem reduce_lt {p : ℕ} (hp : p < 2^(F.n+1)) :
    (if p &&& (1 <<< F.n) ≠ 0 then p ^^^ F.prim else p) < 2^F.n := by
  simp only [and_one_shiftLeft_ne_zero]
  split_ifs with hbit
  · exact xor_lt_of_testBit hp hbit F.size_prim
  · exact lt_two_pow_of_testBit hp (by simpa using hbit)

theorem elem_reduce (p : ℕ) :
    F.elem (if p &&& (1 <<< F.n) ≠ 0 then p ^^^ F.prim else p) = F.elem p := by
  split_ifs
  · rw [elem_xor, elem_prim, add_zero]
  · rfl

theorem elem_double (p : ℕ) : F.elem (p <<< 1) = F.root * F.elem p := by
  rw [elem, poly_shiftLeft, pow_one, map_mul, AdjoinRoot.mk_X]
  rfl

theorem elem_two : F.elem 2 = F.root := by
  have h := F.elem_double 1
  rwa [elem_one, mul_one] at h

theorem elem_eq_bit (b : ℕ) :
    F.elem b = (if b &&& 1 ≠ 0 then 1 else 0) + F.root * F.elem (b >>> 1) := by
  have hodd : b &&& 1 ≠ 0 ↔ b % 2 = 1 := by rw [Nat.and_one_is_mod]; omega
  have hbit : F.elem b = AdjoinRoot.mk _ ((if b % 2 = 1 then 1 else 0) + X * poly (b / 2)) :=
    congrArg _ (poly_eq_bit b)
  rw [hbit, map_add, map_mul, AdjoinRoot.mk_X, Nat.shiftRight_one]
  simp only [hodd, elem, root]
  split_ifs <;> simp

/-- The loop adds the product to `r`. -/
theorem mulLoop_spec (k : ℕ) {p r b : ℕ} (hp : p < 2^F.n) (hr : r < 2^F.n) (hb : b < 2^k) :
    F.mulLoop k p r b < 2^F.n ∧ F.elem (F.mulLoop k p r b) = F.elem r + F.elem p * F.elem b := by
  induction k generalizing p r b with
  | zero =>
    obtain rfl : b = 0 := by omega
    exact ⟨hr,by simp [mulLoop]⟩
  | succ k ih =>
    rw [mulLoop]
    by_cases hzero : b = 0
    · subst hzero
      exact ⟨hr,by simp⟩
    · rw [if_neg hzero]
      have hdouble : p <<< 1 < 2^(F.n+1) := by rw [Nat.shiftLeft_eq, pow_succ]; omega
      have hwrap : (p <<< 1) % 2^64 = p <<< 1 := by
        refine Nat.mod_eq_of_lt (hdouble.trans_le (Nat.pow_le_pow_right Nat.two_pos ?_))
        have := F.le_32
        omega
      have hr' : (if b &&& 1 ≠ 0 then r ^^^ p else r) < 2^F.n := by
        split_ifs
        · exact Nat.xor_lt_two_pow hr hp
        · exact hr
      obtain ⟨hlt,heq⟩ := ih (F.reduce_lt hdouble) hr' (b := b >>> 1)
        (by rw [Nat.shiftRight_one]; rw [pow_succ] at hb; omega)
      simp only [hwrap]
      refine ⟨hlt,?_⟩
      rw [heq, elem_reduce, elem_double, F.elem_eq_bit b]
      split_ifs
      · rw [elem_xor]
        ring
      · ring

/-- `Mul` multiplies residues. Its first operand must be reduced, its second need not be. -/
theorem mul_spec {a b : ℕ} (ha : a < 2^F.n) (hb : b < 2^64) :
    F.mul a b < 2^F.n ∧ F.elem (F.mul a b) = F.elem a * F.elem b := by
  have h := F.mulLoop_spec 64 ha (Nat.two_pow_pos F.n) hb
  rwa [elem_zero, zero_add] at h

theorem lengthLoop_eq (a : ℕ) {k len : ℕ} (hlen : len ≤ a.size) (hk : a.size < len + k) :
    lengthLoop a k len = some a.size := by
  induction k generalizing len with
  | zero => omega
  | succ k ih =>
    rw [lengthLoop, Nat.one_shiftLeft]
    by_cases hle : 2^len ≤ a
    · rw [if_pos hle]
      exact ih (Nat.lt_size.mpr hle) (by omega)
    · rw [if_neg hle]
      exact congrArg some (le_antisymm hlen (Nat.size_le.mpr (not_le.mp hle)))

/-- Each pass takes a bit off the remainder and adds one to the quotient. -/
theorem divLoop_spec {b blen : ℕ} (hb : b.size = blen + 1) (i : ℕ) {m q r : ℕ} (hq : q < 2^m)
    (hr : r < 2^(blen+i)) (hm : m + i ≤ 64) (hblen : blen + i ≤ 63) :
    poly b * (X^i * poly q) + poly r =
        poly b * poly (divLoop b blen i q r).1 + poly (divLoop b blen i q r).2 ∧
      (divLoop b blen i q r).1 < 2^(m+i) ∧ (divLoop b blen i q r).2 < 2^blen := by
  induction i generalizing m q r with
  | zero => exact ⟨by rw [divLoop, pow_zero, one_mul],by simpa [divLoop] using hq,hr⟩
  | succ i ih =>
    have hdouble : q <<< 1 < 2^(m+1) := by rw [Nat.shiftLeft_eq, pow_succ]; omega
    have hwrap : (q <<< 1) % 2^64 = q <<< 1 :=
      Nat.mod_eq_of_lt (hdouble.trans_le (Nat.pow_le_pow_right Nat.two_pos (by omega)))
    have hshift : b <<< i < 2^(blen+i+1) := by
      rw [Nat.shiftLeft_eq, show blen + i + 1 = blen + 1 + i by omega, pow_add]
      exact Nat.mul_lt_mul_of_pos_right (Nat.size_le.mp hb.le) (Nat.two_pow_pos i)
    have hwrap' : (b <<< i) % 2^64 = b <<< i :=
      Nat.mod_eq_of_lt (hshift.trans_le (Nat.pow_le_pow_right Nat.two_pos (by omega)))
    simp only [divLoop, and_one_shiftLeft_ne_zero, hwrap, hwrap']
    by_cases hbit : r.testBit (blen+i)
    · have hodd : poly (q <<< 1 + 1) = X * poly q + 1 := by
        rw [poly_eq_bit, Nat.shiftLeft_eq, if_pos (by omega), show (q * 2^1 + 1) / 2 = q by omega,
          add_comm]
      have hnext : q <<< 1 + 1 < 2^(m+1) := by
        rw [Nat.shiftLeft_eq, pow_succ]
        omega
      have htop : (b <<< i).size = blen + i + 1 := by
        rw [Nat.size_shiftLeft (by rintro rfl; simp at hb), hb]
        omega
      rw [if_pos hbit]
      obtain ⟨heq,hlt,hrem⟩ := ih hnext (xor_lt_of_testBit hr hbit htop) (by omega) (by omega)
      refine ⟨?_,by rwa [show m + (i+1) = m + 1 + i by omega],hrem⟩
      have htwo : (2 : (ZMod 2)[X]) = 0 := CharTwo.two_eq_zero
      rw [← heq, hodd, poly_xor, poly_shiftLeft]
      linear_combination -(poly b * X^i) * htwo
    · rw [if_neg hbit]
      obtain ⟨heq,hlt,hrem⟩ := ih hdouble (lt_two_pow_of_testBit hr (by simpa using hbit))
        (by omega) (by omega)
      refine ⟨?_,by rwa [show m + (i+1) = m + 1 + i by omega],hrem⟩
      rw [← heq, poly_shiftLeft]
      ring

/-- Long division is the division with remainder of polynomials. -/
theorem longDiv_spec {a b : ℕ} (ha : a < 2^63) (hb : b < 2^63) (hb₀ : b ≠ 0) :
    ∃ q r, longDiv a b = some (q,r) ∧ q < 2^64 ∧ r.size < b.size ∧
      poly a = poly b * poly q + poly r := by
  have hasize := Nat.size_le.mpr ha
  have hbsize := Nat.size_le.mpr hb
  have hbpos := Nat.size_pos.mpr (Nat.pos_of_ne_zero hb₀)
  have hlen : b.size = b.size - 1 + 1 := by omega
  have hr : a < 2^(b.size - 1 + (a.size + 1 - b.size)) := Nat.size_le.mp (by omega)
  obtain ⟨heq,hq,hrem⟩ := divLoop_spec hlen (a.size + 1 - b.size) (m := 0) (q := 0) (by omega) hr
    (by omega) (by omega)
  refine ⟨_,_,?_,hq.trans_le (Nat.pow_le_pow_right Nat.two_pos (by omega)),?_,by simpa using heq⟩
  · rw [longDiv, if_neg hb₀, lengthLoop_eq a (Nat.zero_le _) (by omega),
      lengthLoop_eq b (Nat.zero_le _) (by omega)]
    rfl
  · exact (Nat.size_le.mpr hrem).trans_lt (by omega)

/-- The remainders keep their common divisors, and the cofactors account for them in the ring. -/
structure Bezout (a b g0 g1 u0 u1 v0 v1 : ℕ) : Prop where
  divisors : ∀ d, d ∣ poly g0 ∧ d ∣ poly g1 ↔ d ∣ poly a ∧ d ∣ poly b
  first : F.elem g0 = F.elem a * F.elem u0 + F.elem b * F.elem v0
  second : F.elem g1 = F.elem a * F.elem u1 + F.elem b * F.elem v1
  u0_lt : u0 < 2^F.n
  u1_lt : u1 < 2^F.n
  v0_lt : v0 < 2^F.n
  v1_lt : v1 < 2^F.n

variable {F} {a b : ℕ}

theorem Bezout.start (F : GaloisField) (a b : ℕ) : F.Bezout a b a b 1 0 0 1 := by
  have hone : 1 < 2^F.n := Nat.one_lt_two_pow (by have := F.one_le; omega)
  exact ⟨fun d => Iff.rfl,by simp,by simp,hone,Nat.two_pow_pos _,Nat.two_pow_pos _,hone⟩

theorem Bezout.step {g0 g1 u0 u1 v0 v1 q r : ℕ} (h : F.Bezout a b g0 g1 u0 u1 v0 v1)
    (hq : q < 2^64) (hdiv : poly g0 = poly g1 * poly q + poly r) :
    F.Bezout a b g1 r u1 (sub u0 (F.mul u1 q)) v1 (sub v0 (F.mul v1 q)) := by
  obtain ⟨hult,hu⟩ := F.mul_spec h.u1_lt hq
  obtain ⟨hvlt,hv⟩ := F.mul_spec h.v1_lt hq
  refine ⟨fun d => ?_,h.second,?_,h.u1_lt,Nat.xor_lt_two_pow h.u0_lt hult,h.v1_lt,
    Nat.xor_lt_two_pow h.v0_lt hvlt⟩
  · rw [← h.divisors d, hdiv]
    constructor
    · rintro ⟨h1,hr⟩
      exact ⟨dvd_add (h1.mul_right _) hr,h1⟩
    · rintro ⟨h0,h1⟩
      exact ⟨h1,(dvd_add_right (h1.mul_right _)).mp h0⟩
  · have hrem : F.elem r = F.elem g0 - F.elem g1 * F.elem q := by
      have hdiv' : poly r = poly g0 - poly g1 * poly q := by rw [hdiv]; ring
      rw [elem, hdiv', map_sub, map_mul]
      rfl
    rw [hrem, h.first, h.second, elem_sub, elem_sub, hu, hv]
    ring

/-- The remainders get shorter, so the loop ends. -/
theorem euclidLoop_spec {k g0 g1 u0 u1 v0 v1 : ℕ} (h : F.Bezout a b g0 g1 u0 u1 v0 v1)
    (hg0 : g0 < 2^63) (hg1 : g1 < 2^63) (hk : g1.size < k) :
    ∃ g u v, F.euclidLoop k g0 g1 u0 u1 v0 v1 = some (g,u,v) ∧
      (∀ d, d ∣ poly g ↔ d ∣ poly a ∧ d ∣ poly b) ∧
      F.elem g = F.elem a * F.elem u + F.elem b * F.elem v ∧ u < 2^F.n ∧ v < 2^F.n := by
  induction k generalizing g0 g1 u0 u1 v0 v1 with
  | zero => omega
  | succ k ih =>
    rw [euclidLoop]
    by_cases hzero : g1 = 0
    · refine ⟨g0,u0,v0,if_pos hzero,fun d => ?_,h.first,h.u0_lt,h.v0_lt⟩
      rw [← h.divisors d, hzero, poly_zero]
      exact (and_iff_left (dvd_zero d)).symm
    · obtain ⟨q,r,hlong,hq,hr,hdiv⟩ := longDiv_spec hg0 hg1 hzero
      rw [if_neg hzero, hlong, Option.bind_some]
      have hr63 : r < 2^63 := Nat.size_le.mp (hr.le.trans (Nat.size_le.mpr hg1))
      have hk' : r.size < k := by omega
      exact ih (h.step hq hdiv) hg1 hr63 hk'

/-- `g` is the greatest common divisor, and it is `a*u + b*v` in the ring. -/
theorem extendedEuclid_spec (F : GaloisField) (ha : a < 2^63) (hb : b < 2^63) :
    ∃ g u v, F.extendedEuclid a b = some (g,u,v) ∧
      (∀ d, d ∣ poly g ↔ d ∣ poly a ∧ d ∣ poly b) ∧
      F.elem g = F.elem a * F.elem u + F.elem b * F.elem v ∧ u < 2^F.n ∧ v < 2^F.n := by
  have hsize := Nat.size_le.mpr hb
  exact euclidLoop_spec (Bezout.start F a b) ha hb (by omega)

/-- For elements of the field the cofactors combine to the greatest common divisor itself. -/
theorem add_mul_cofactors (F : GaloisField) (ha : a < 2^F.n) (hb : b < 2^F.n) :
    ∃ g u v, F.extendedEuclid a b = some (g,u,v) ∧ add (F.mul a u) (F.mul b v) = g ∧
      (∀ d, d ∣ poly g ↔ d ∣ poly a ∧ d ∣ poly b) := by
  have hle : 2^F.n ≤ 2^32 := Nat.pow_le_pow_right Nat.two_pos F.le_32
  have h63 : 2^F.n ≤ 2^63 := hle.trans (by decide)
  obtain ⟨g,u,v,heuclid,hdvd,helem,hu,hv⟩ :=
    F.extendedEuclid_spec (ha.trans_le h63) (hb.trans_le h63)
  obtain ⟨hau,helemu⟩ := F.mul_spec ha (hu.trans_le (hle.trans (by decide)))
  obtain ⟨hbv,helemv⟩ := F.mul_spec hb (hv.trans_le (hle.trans (by decide)))
  have hg : g < 2^F.n := by
    by_cases hzero : a = 0
    · by_cases hzero' : b = 0
      · have hself := (hdvd 0).mpr (by rw [hzero, hzero', poly_zero]; exact ⟨dvd_rfl,dvd_rfl⟩)
        rw [poly_eq_zero.mp (zero_dvd_iff.mp hself)]
        exact Nat.two_pow_pos _
      · exact lt_of_dvd hzero' ((hdvd _).mp dvd_rfl).2 hb
    · exact lt_of_dvd hzero ((hdvd _).mp dvd_rfl).1 ha
  refine ⟨g,u,v,heuclid,F.elem_injOn (Nat.xor_lt_two_pow hau hbv) hg ?_,hdvd⟩
  rw [elem_xor, helemu, helemv, helem]

theorem add_mul_cofactors_gf8 : (0x53 < 2^8 ∧ 0xca < 2^8) ∧
    ∃ g u v, extendedEuclid ⟨8,by decide,by decide⟩ 0x53 0xca = some (g,u,v) ∧
      add (mul ⟨8,by decide,by decide⟩ 0x53 u) (mul ⟨8,by decide,by decide⟩ 0xca v) = g ∧
      (∀ d, d ∣ poly g ↔ d ∣ poly 0x53 ∧ d ∣ poly 0xca) :=
  ⟨⟨by decide,by decide⟩,add_mul_cofactors ⟨8,by decide,by decide⟩ (by decide) (by decide)⟩

theorem prim_lt_63 (F : GaloisField) : F.prim < 2^63 :=
  F.prim_lt.trans_le (Nat.pow_le_pow_right Nat.two_pos (by have := F.le_32; omega))

/-- What is prime to the modulus is inverted. -/
theorem inv_spec (F : GaloisField) (ha : a < 2^63) (hcoprime : IsCoprime (poly a) (poly F.prim)) :
    ∃ u, F.inv a = some u ∧ u < 2^F.n ∧ F.elem a * F.elem u = 1 := by
  obtain ⟨g,u,v,heuclid,hdvd,helem,hu,-⟩ := F.extendedEuclid_spec ha F.prim_lt_63
  have hone : g = 1 := by
    refine eq_one_of_isUnit (hcoprime.isUnit_of_dvd' ?_ ?_)
    · exact ((hdvd _).mp dvd_rfl).1
    · exact ((hdvd _).mp dvd_rfl).2
  refine ⟨u,by rw [inv, heuclid]; rfl,hu,?_⟩
  rw [hone, elem_one, elem_prim, zero_mul, add_zero] at helem
  exact helem.symm

/-- `X ^ 2 ^ d` by repeated squaring. -/
def frobenius (F : GaloisField) : ℕ → ℕ
  | 0 => 2
  | d+1 => F.mul (F.frobenius d) (F.frobenius d)

/-- The modulus has no factor in common with `X ^ 2 ^ d - X`. -/
def PrimeToFrobenius (F : GaloisField) (d : ℕ) : Prop :=
  (F.extendedEuclid (F.frobenius d ^^^ 2) F.prim).map Prod.fst = some 1

instance (F : GaloisField) : DecidablePred F.PrimeToFrobenius := fun d =>
  inferInstanceAs (Decidable ((F.extendedEuclid (F.frobenius d ^^^ 2) F.prim).map Prod.fst = some 1))

theorem frobenius_spec (F : GaloisField) (hn : 2 ≤ F.n) (d : ℕ) :
    F.frobenius d < 2^F.n ∧ F.elem (F.frobenius d) = F.root ^ 2^d := by
  induction d with
  | zero =>
    have hfour : 2^2 ≤ 2^F.n := Nat.pow_le_pow_right Nat.two_pos hn
    refine ⟨lt_of_lt_of_le (show 2 < 2^2 by decide) hfour,?_⟩
    rw [frobenius, pow_zero, pow_one, elem_two]
  | succ d ih =>
    have hlt : F.frobenius d < 2^64 :=
      ih.1.trans_le (Nat.pow_le_pow_right Nat.two_pos (by have := F.le_32; omega))
    obtain ⟨hmul,helem⟩ := F.mul_spec ih.1 hlt
    exact ⟨hmul,by rw [frobenius, helem, ih.2, ← pow_add, ← two_mul, ← pow_succ']⟩

theorem PrimeToFrobenius.isCoprime {d : ℕ} (h : F.PrimeToFrobenius d) (hn : 2 ≤ F.n) :
    IsCoprime (X ^ 2^d - X) (poly F.prim) := by
  obtain ⟨hlt,helem⟩ := F.frobenius_spec hn d
  have htwo : 2 < 2^F.n := lt_of_lt_of_le (by decide : 2 < 2^2) (Nat.pow_le_pow_right Nat.two_pos hn)
  have hle : 2^F.n ≤ 2^63 := Nat.pow_le_pow_right Nat.two_pos (by have := F.le_32; omega)
  obtain ⟨g,u,v,heuclid,hdvd,-⟩ :=
    F.extendedEuclid_spec ((Nat.xor_lt_two_pow hlt htwo).trans_le hle) F.prim_lt_63
  rw [PrimeToFrobenius, heuclid, Option.map_some, Option.some_inj] at h
  obtain rfl : g = 1 := h
  have hcoprime : IsCoprime (poly (F.frobenius d ^^^ 2)) (poly F.prim) := by
    refine isCoprime_of_dvd _ _ (fun hzero => F.poly_prim.1.ne_zero hzero.2) fun p hp _ h1 h2 => hp ?_
    exact isUnit_of_dvd_one (poly_one ▸ (hdvd p).mpr ⟨h1,h2⟩)
  have hsame : AdjoinRoot.mk (poly F.prim) (X ^ 2^d - X) = F.elem (F.frobenius d ^^^ 2) := by
    rw [map_sub, map_pow, AdjoinRoot.mk_X]
    exact (helem ▸ F.elem_two ▸ F.elem_sub (F.frobenius d) 2).symm
  obtain ⟨w,hw⟩ := AdjoinRoot.mk_eq_mk.mp hsame
  have hsum : X ^ 2^d - X = poly (F.frobenius d ^^^ 2) + poly F.prim * w := by rw [← hw]; ring
  rw [hsum]
  exact hcoprime.add_mul_left_left w

/-- The polynomials of the table are irreducible, all but one. -/
theorem prim_irreducible (F : GaloisField) (hn : F.n ≠ 29) : Irreducible (poly F.prim) := by
  obtain ⟨hmonic,hdegree⟩ := F.poly_prim
  have hone : poly F.prim ≠ 1 := by
    intro h
    have hpos := F.one_le
    rw [h, natDegree_one] at hdegree
    omega
  refine irreducible_of_isCoprime hmonic hone fun d hd => ?_
  rw [hdegree, Finset.mem_Icc] at hd
  have htable : ∀ n ∈ List.range 33, (h : 1 ≤ n ∧ n ≤ 32) → n ≠ 29 →
      ∀ d ∈ List.range (n/2), PrimeToFrobenius ⟨n,h.1,h.2⟩ (d+1) := by
    decide +kernel
  have hd' := htable F.n (List.mem_range.mpr (by have := F.le_32; omega)) ⟨F.one_le,F.le_32⟩ hn (d-1)
    (List.mem_range.mpr (by omega))
  rw [Nat.sub_add_cancel hd.1] at hd'
  exact hd'.isCoprime (by change 2 ≤ F.n; omega)

theorem poly_seven : poly 7 = X^2 + X + 1 := by
  have hbits : 7 = 1 <<< 2 ^^^ 1 <<< 1 ^^^ 1 := by decide
  rw [hbits, poly_xor, poly_xor, poly_shiftLeft, poly_shiftLeft, poly_one, mul_one, mul_one, pow_one]

/-- The polynomial of the table for `n = 29` has a factor of degree 2. -/
theorem factor_dvd_prim (F : GaloisField) (hn : F.n = 29) : X^2 + X + 1 ∣ poly F.prim := by
  have htable : ∀ n, (h : 1 ≤ n ∧ n ≤ 32) → n = 29 →
      ((GaloisField.mk n h.1 h.2).extendedEuclid 7 (GaloisField.mk n h.1 h.2).prim).map (·.1) =
        some 7 := by
    rintro n h rfl
    decide +kernel +revert
  obtain ⟨g,u,v,heuclid,hdvd,-⟩ := F.extendedEuclid_spec (by decide : 7 < 2^63) F.prim_lt_63
  have hgcd := htable F.n ⟨F.one_le,F.le_32⟩ hn
  rw [heuclid, Option.map_some, Option.some_inj] at hgcd
  obtain rfl : g = 7 := hgcd
  rw [← poly_seven]
  exact ((hdvd _).mp dvd_rfl).2

/-- `Inv` inverts every nonzero element of GF(2^n), except that for `n = 29` the polynomial of
the table has the factor `X^2 + X + 1`, and 7 has no inverse. -/
theorem inv_mul_iff (F : GaloisField) :
    (∀ a, a ≠ 0 → a < 2^F.n → ∃ b, F.inv a = some b ∧ b < 2^F.n ∧ F.mul b a = 1) ↔ F.n ≠ 29 := by
  constructor
  · intro h hn
    have hfactor := F.factor_dvd_prim hn
    rw [← poly_seven] at hfactor
    obtain ⟨b,-,hlt,hone⟩ := h 7 (by decide) (by rw [hn]; decide)
    have hmul := (F.mul_spec hlt (by decide : 7 < 2^64)).2
    rw [hone, elem, elem, elem, ← map_mul] at hmul
    have hdvd : poly 7 ∣ poly 1 - poly b * poly 7 := hfactor.trans (AdjoinRoot.mk_eq_mk.mp hmul)
    rw [poly_one] at hdvd
    have hunit := isUnit_of_dvd_one ((dvd_sub_left (Dvd.intro_left _ rfl)).mp hdvd)
    exact absurd (eq_one_of_isUnit hunit) (by decide)
  · intro hn a ha hlt
    have hle := F.le_32
    have hdegree : (poly a).degree < (poly F.prim).degree := by
      rw [degree_eq_natDegree F.poly_prim.1.ne_zero, F.poly_prim.2]
      exact lt_two_pow_iff.mp hlt
    have hcoprime : IsCoprime (poly a) (poly F.prim) := by
      refine ((F.prim_irreducible hn).coprime_iff_not_dvd.mpr fun hdvd => ha ?_).symm
      exact poly_eq_zero.mp (eq_zero_of_dvd_of_degree_lt hdvd hdegree)
    have h64 : 2^F.n ≤ 2^63 := Nat.pow_le_pow_right Nat.two_pos (by omega)
    obtain ⟨u,hu,hult,helem⟩ := F.inv_spec (hlt.trans_le h64) hcoprime
    obtain ⟨hmul,hprod⟩ := F.mul_spec hult (hlt.trans (h64.trans_lt (by decide)))
    refine ⟨u,hu,hult,F.elem_injOn hmul (Nat.one_lt_two_pow (by have := F.one_le; omega)) ?_⟩
    rw [hprod, mul_comm, helem, elem_one]

end GaloisField
end SketchMonitor
