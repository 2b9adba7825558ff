import SketchMonitor.FieldLaws

/-!
# Mangling of keys

A key of 32 bits is multiplied by a seed in GF(2^32), with tables of the products of its
bytes or of its halves, and the reverse tables multiply by the inverse of the seed. The
tables add up to the product because multiplication is linear, so the two kinds of table
agree with `Mul`, and mangling can be reversed unless the seed is a multiple of the
modulus.
-/

namespace SketchMonitor

open BinaryPolynomials

def gf32 : GaloisField := ⟨32,by decide,le_rfl⟩

/-- `Mod(a, b)`. -/
def GaloisField.mod (a b : ℕ) : Option ℕ := (GaloisField.longDiv a b).map Prod.snd

/-- The tables, as functions of their number, below 4 or 2, and of the index. -/
structure Mangler where
  charMgltbl : ℕ → Fin 256 → ℕ
  charRevtbl : ℕ → Fin 256 → ℕ
  shortMgltbl : ℕ → Fin 65536 → ℕ
  shortRevtbl : ℕ → Fin 65536 → ℕ

namespace Mangler

/-- The entries `uint32(gf->Mul(i<<(8*j),a))` of the tables for bytes. -/
def charTable (a j : ℕ) (i : Fin 256) : ℕ := gf32.mul (i.val <<< (8 * j)) a % 2^32

/-- The entries `uint32(gf->Mul(i<<(16*j),a))` of the tables for halves. -/
def shortTable (a j : ℕ) (i : Fin 65536) : ℕ := gf32.mul (i.val <<< (16 * j)) a % 2^32

/-- The constructor, with `InitCharTable` and `InitShortTable`. -/
def new (seed1 seed2 : ℕ) : Option Mangler :=
  (gf32.inv seed1).bind fun b1 => (gf32.inv seed2).map fun b2 =>
    ⟨charTable seed1,charTable b1,shortTable seed2,shortTable b2⟩

/-- `x.as_int8s[j]`, the bytes from the lowest on. -/
def asInt8s (k j : ℕ) : Fin 256 := ⟨(k >>> (8 * j)) % 256,Nat.mod_lt _ (by decide)⟩

/-- `x.as_int16s[j]`. -/
def asInt16s (k j : ℕ) : Fin 65536 := ⟨(k >>> (16 * j)) % 65536,Nat.mod_lt _ (by decide)⟩

/-- The entries for the four bytes, added up. -/
def charLookup (tbl : ℕ → Fin 256 → ℕ) (k : ℕ) : ℕ :=
  tbl 0 (asInt8s k 0) ^^^ tbl 1 (asInt8s k 1) ^^^ tbl 2 (asInt8s k 2) ^^^ tbl 3 (asInt8s k 3)

def shortLookup (tbl : ℕ → Fin 65536 → ℕ) (k : ℕ) : ℕ :=
  tbl 0 (asInt16s k 0) ^^^ tbl 1 (asInt16s k 1)

variable (m : Mangler)

def mangleCharTable (k : ℕ) : ℕ := charLookup m.charMgltbl k

def mangleShortTable (k : ℕ) : ℕ := shortLookup m.shortMgltbl k

def reverseCharTable (k : ℕ) : ℕ := charLookup m.charRevtbl k

def reverseShortTable (k : ℕ) : ℕ := shortLookup m.shortRevtbl k

theorem asInt8s_xor {k : ℕ} (hk : k < 2^32) :
    (asInt8s k 0).val ^^^ (asInt8s k 1).val <<< 8 ^^^ (asInt8s k 2).val <<< 16 ^^^
      (asInt8s k 3).val <<< 24 = k := by
  have hmod : (256 : ℕ) = 2^8 := rfl
  refine Nat.eq_of_testBit_eq fun i => ?_
  simp only [asInt8s, hmod, Nat.testBit_xor, Nat.testBit_shiftLeft, Nat.testBit_mod_two_pow,
    Nat.testBit_shiftRight]
  obtain h | h | h | h | h : i < 8 ∨ 8 ≤ i ∧ i < 16 ∨ 16 ≤ i ∧ i < 24 ∨ 24 ≤ i ∧ i < 32 ∨ 32 ≤ i := by
    omega
  · simp [h, show ¬8 ≤ i by omega, show ¬16 ≤ i by omega, show ¬24 ≤ i by omega]
  · simp [h, show ¬i < 8 by omega, show i - 8 < 8 by omega, show ¬16 ≤ i by omega,
      show ¬24 ≤ i by omega]
  · simp [h, show ¬i < 8 by omega, show ¬i - 8 < 8 by omega, show i - 16 < 8 by omega,
      show ¬24 ≤ i by omega]
  · simp [h, show ¬i < 8 by omega, show ¬i - 8 < 8 by omega, show ¬i - 16 < 8 by omega,
      show i - 24 < 8 by omega]
  · rw [Nat.testBit_lt_two_pow (hk.trans_le (Nat.pow_le_pow_right Nat.two_pos h))]
    simp [show ¬i < 8 by omega, show ¬i - 8 < 8 by omega, show ¬i - 16 < 8 by omega,
      show ¬i - 24 < 8 by omega]

theorem asInt16s_xor {k : ℕ} (hk : k < 2^32) :
    (asInt16s k 0).val ^^^ (asInt16s k 1).val <<< 16 = k := by
  have hmod : (65536 : ℕ) = 2^16 := rfl
  refine Nat.eq_of_testBit_eq fun i => ?_
  simp only [asInt16s, hmod, Nat.testBit_xor, Nat.testBit_shiftLeft, Nat.testBit_mod_two_pow,
    Nat.testBit_shiftRight]
  obtain h | h | h : i < 16 ∨ 16 ≤ i ∧ i < 32 ∨ 32 ≤ i := by omega
  · simp [h, show ¬16 ≤ i by omega]
  · simp [h, show ¬i < 16 by omega, show i - 16 < 16 by omega]
  · rw [Nat.testBit_lt_two_pow (hk.trans_le (Nat.pow_le_pow_right Nat.two_pos h))]
    simp [show ¬i < 16 by omega, show ¬i - 16 < 16 by omega]

theorem elem_asInt8s {k : ℕ} (hk : k < 2^32) :
    gf32.elem k = gf32.elem ((asInt8s k 0).val <<< (8 * 0)) +
      gf32.elem ((asInt8s k 1).val <<< (8 * 1)) +
      gf32.elem ((asInt8s k 2).val <<< (8 * 2)) +
      gf32.elem ((asInt8s k 3).val <<< (8 * 3)) := by
  rw [← GaloisField.elem_xor, ← GaloisField.elem_xor, ← GaloisField.elem_xor]
  exact congrArg gf32.elem (asInt8s_xor hk).symm

theorem elem_asInt16s {k : ℕ} (hk : k < 2^32) :
    gf32.elem k = gf32.elem ((asInt16s k 0).val <<< (16 * 0)) +
      gf32.elem ((asInt16s k 1).val <<< (16 * 1)) := by
  rw [← GaloisField.elem_xor]
  exact congrArg gf32.elem (asInt16s_xor hk).symm

/-- An entry stands for the product of its place with the factor. -/
theorem table_spec {i n a : ℕ} (hi : i <<< n < 2^32) (ha : a < 2^64) :
    gf32.mul (i <<< n) a % 2^32 < 2^32 ∧
      gf32.elem (gf32.mul (i <<< n) a % 2^32) = gf32.elem (i <<< n) * gf32.elem a := by
  obtain ⟨hlt,helem⟩ := gf32.mul_spec (a := i <<< n) hi ha
  have hmod : gf32.mul (i <<< n) a % 2^32 = gf32.mul (i <<< n) a := Nat.mod_eq_of_lt hlt
  exact ⟨Nat.mod_lt _ (by decide),by rw [hmod, helem]⟩

theorem shift_lt {i w n : ℕ} (hi : i < 2^w) (hn : w + n ≤ 32) : i <<< n < 2^32 := by
  rw [Nat.shiftLeft_eq]
  calc i * 2^n < 2^w * 2^n := Nat.mul_lt_mul_of_pos_right hi (Nat.two_pow_pos n)
    _ = 2^(w+n) := (pow_add ..).symm
    _ ≤ 2^32 := Nat.pow_le_pow_right Nat.two_pos hn

theorem charTable_spec {a j : ℕ} (ha : a < 2^64) (hj : j < 4) (i : Fin 256) :
    charTable a j i < 2^32 ∧
      gf32.elem (charTable a j i) = gf32.elem (i.val <<< (8 * j)) * gf32.elem a :=
  table_spec (shift_lt (w := 8) i.isLt (by omega)) ha

theorem shortTable_spec {a j : ℕ} (ha : a < 2^64) (hj : j < 2) (i : Fin 65536) :
    shortTable a j i < 2^32 ∧
      gf32.elem (shortTable a j i) = gf32.elem (i.val <<< (16 * j)) * gf32.elem a :=
  table_spec (shift_lt (w := 16) i.isLt (by omega)) ha

/-- The tables of bytes multiply by their factor. -/
theorem charLookup_eq {a k : ℕ} (ha : a < 2^64) (hk : k < 2^32) :
    charLookup (charTable a) k = gf32.mul k a := by
  obtain ⟨hmul,hprod⟩ := gf32.mul_spec (a := k) hk ha
  obtain ⟨hlt0,helem0⟩ := charTable_spec ha (by decide : 0 < 4) (asInt8s k 0)
  obtain ⟨hlt1,helem1⟩ := charTable_spec ha (by decide : 1 < 4) (asInt8s k 1)
  obtain ⟨hlt2,helem2⟩ := charTable_spec ha (by decide : 2 < 4) (asInt8s k 2)
  obtain ⟨hlt3,helem3⟩ := charTable_spec ha (by decide : 3 < 4) (asInt8s k 3)
  refine gf32.elem_injOn ?_ hmul ?_
  · exact Nat.xor_lt_two_pow (Nat.xor_lt_two_pow (Nat.xor_lt_two_pow hlt0 hlt1) hlt2) hlt3
  · rw [hprod, charLookup]
    rw [GaloisField.elem_xor, GaloisField.elem_xor, GaloisField.elem_xor, helem0, helem1, helem2,
      helem3, elem_asInt8s hk, add_mul, add_mul, add_mul]

/-- The tables of halves multiply by their factor. -/
theorem shortLookup_eq {a k : ℕ} (ha : a < 2^64) (hk : k < 2^32) :
    shortLookup (shortTable a) k = gf32.mul k a := by
  obtain ⟨hmul,hprod⟩ := gf32.mul_spec (a := k) hk ha
  obtain ⟨hlt0,helem0⟩ := shortTable_spec ha (by decide : 0 < 2) (asInt16s k 0)
  obtain ⟨hlt1,helem1⟩ := shortTable_spec ha (by decide : 1 < 2) (asInt16s k 1)
  refine gf32.elem_injOn ?_ hmul ?_
  · exact Nat.xor_lt_two_pow hlt0 hlt1
  · rw [hprod, shortLookup]
    rw [GaloisField.elem_xor, helem0, helem1, elem_asInt16s hk, add_mul]

/-- `Mod` tells the multiples of the modulus. -/
theorem mod_prim_eq_zero_iff {a : ℕ} (ha : a < 2^63) :
    GaloisField.mod a gf32.prim = some 0 ↔ gf32.elem a = 0 := by
  have hprim : gf32.prim ≠ 0 := fun h => gf32.poly_prim.1.ne_zero (poly_eq_zero.mpr h)
  obtain ⟨q,r,hlong,-,hr,hdiv⟩ := GaloisField.longDiv_spec ha gf32.prim_lt_63 hprim
  have helem : gf32.elem a = gf32.elem r := by
    rw [GaloisField.elem, hdiv, map_add, map_mul, AdjoinRoot.mk_self, zero_mul, zero_add]
    rfl
  rw [GaloisField.mod, hlong, Option.map_some, Option.some_inj, helem]
  change r = 0 ↔ gf32.elem r = 0
  refine ⟨fun h => by rw [h, GaloisField.elem_zero],fun h => ?_⟩
  have hlt : r < 2^32 := Nat.size_le.mp (by rw [GaloisField.size_prim] at hr; exact Nat.le_of_lt_succ hr)
  exact gf32.elem_injOn hlt (Nat.two_pow_pos 32) (by rw [h, GaloisField.elem_zero])

/-- Two multiplications, one by the value of `Inv`, cancel unless the factor is zero. -/
theorem mul_mul_inv_iff {a : ℕ} (ha : a < 2^63) :
    ∃ b < 2^32, gf32.inv a = some b ∧ ((∀ k < 2^32, gf32.mul (gf32.mul k a) b = k) ↔ gf32.elem a ≠ 0) := by
  have ha' : a < 2^64 := ha.trans (by decide)
  by_cases hzero : gf32.elem a = 0
  · obtain ⟨g,b,v,heuclid,-,-,hb,-⟩ := gf32.extendedEuclid_spec ha gf32.prim_lt_63
    have hmul : ∀ k < 2^32, gf32.mul k a = 0 := by
      intro k hk
      obtain ⟨hlt,helem⟩ := gf32.mul_spec (a := k) hk ha'
      refine gf32.elem_injOn hlt (Nat.two_pow_pos 32) ?_
      rw [helem, hzero, mul_zero, GaloisField.elem_zero]
    refine ⟨b,hb,by rw [GaloisField.inv, heuclid]; rfl,iff_of_false (fun h => ?_) (not_not.mpr hzero)⟩
    have h0 := h 0 (by decide)
    have h1 := h 1 (by decide)
    rw [hmul 0 (by decide)] at h0
    rw [hmul 1 (by decide)] at h1
    exact absurd (h0.symm.trans h1) (by decide)
  · have hcoprime : IsCoprime (poly a) (poly gf32.prim) := by
      refine ((gf32.prim_irreducible (by decide)).coprime_iff_not_dvd.mpr fun hdvd => hzero ?_).symm
      exact (gf32.elem_eq_zero_iff).mpr hdvd
    obtain ⟨b,hb,hlt,hone⟩ := gf32.inv_spec ha hcoprime
    refine ⟨b,hlt,hb,iff_of_true (fun k hk => ?_) hzero⟩
    obtain ⟨hlt₁,helem₁⟩ := gf32.mul_spec (a := k) hk ha'
    obtain ⟨hlt₂,helem₂⟩ := gf32.mul_spec (b := b) hlt₁ (hlt.trans (by decide))
    refine gf32.elem_injOn hlt₂ hk ?_
    rw [helem₂, helem₁, mul_assoc, hone, mul_one]

/-- For seeds without the highest bit the tables can be built, and mangling is reversed just
when the seed is not a multiple of the modulus. Both kinds of table multiply by their seed. -/
theorem reverse_mangle_iff {seed1 seed2 : ℕ} (h1 : seed1 < 2^63) (h2 : seed2 < 2^63) :
    ∃ m, new seed1 seed2 = some m ∧
      (∀ k < 2^32, m.mangleCharTable k = gf32.mul k seed1 ∧
        m.mangleShortTable k = gf32.mul k seed2) ∧
      ((∀ k < 2^32, m.reverseCharTable (m.mangleCharTable k) = k) ↔
        GaloisField.mod seed1 gf32.prim ≠ some 0) ∧
      ((∀ k < 2^32, m.reverseShortTable (m.mangleShortTable k) = k) ↔
        GaloisField.mod seed2 gf32.prim ≠ some 0) := by
  obtain ⟨b1,hb1,hinv1,hiff1⟩ := mul_mul_inv_iff h1
  obtain ⟨b2,hb2,hinv2,hiff2⟩ := mul_mul_inv_iff h2
  have hchar : ∀ k < 2^32, charLookup (charTable seed1) k = gf32.mul k seed1 :=
    fun k => charLookup_eq (h1.trans (by decide))
  have hshort : ∀ k < 2^32, shortLookup (shortTable seed2) k = gf32.mul k seed2 :=
    fun k => shortLookup_eq (h2.trans (by decide))
  refine ⟨⟨charTable seed1,charTable b1,shortTable seed2,shortTable b2⟩,
    by rw [new, hinv1, hinv2]; rfl,fun k hk => ⟨hchar k hk,hshort k hk⟩,?_,?_⟩
  · rw [ne_eq, mod_prim_eq_zero_iff h1, ← ne_eq, ← hiff1]
    refine forall₂_congr fun k hk => ?_
    have hmul := (gf32.mul_spec (a := k) hk (h1.trans (by decide) : seed1 < 2^64)).1
    rw [reverseCharTable, mangleCharTable, hchar k hk, charLookup_eq (hb1.trans (by decide)) hmul]
  · rw [ne_eq, mod_prim_eq_zero_iff h2, ← ne_eq, ← hiff2]
    refine forall₂_congr fun k hk => ?_
    have hmul := (gf32.mul_spec (a := k) hk (h2.trans (by decide) : seed2 < 2^64)).1
    rw [reverseShortTable, mangleShortTable, hshort k hk, shortLookup_eq (hb2.trans (by decide)) hmul]

theorem reverse_mangle_seeds :
    38409845058049 < 2^63 ∧ 9475047563245 < 2^63 ∧ ∃ m, new 38409845058049 9475047563245 = some m ∧
      ∀ k < 2^32, m.reverseCharTable (m.mangleCharTable k) = k ∧
        m.reverseShortTable (m.mangleShortTable k) = k := by
  have h1 : 38409845058049 < 2^63 := by decide
  have h2 : 9475047563245 < 2^63 := by decide
  obtain ⟨m,hnew,-,hchar,hshort⟩ := reverse_mangle_iff h1 h2
  refine ⟨h1,h2,m,hnew,fun k hk => ⟨hchar.mpr ?_ k hk,hshort.mpr ?_ k hk⟩⟩ <;> decide +kernel

end Mangler
end SketchMonitor
