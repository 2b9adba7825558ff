import SketchMonitor.BinaryPolynomials

/-!
# Arithmetic in GF(2^n)

Elements are words of 64 bits, the bits being the coefficients of a polynomial. `Mul`
reduces while it multiplies, `LongDiv` divides without reducing, and `ExtendedEuclid` mixes
the two: its remainders are exact and its cofactors are reduced. Every operation is stated
over the quotient by the polynomial of the table, in which a word stands for its residue.
-/

namespace SketchMonitor

/-- The polynomials for GF(2^n), for `n` from 0. -/
def primTable : List ℕ :=
  [1,
    (1 <<< 1) + 1,
    (1 <<< 2) + (1 <<< 1) + 1,
    (1 <<< 3) + (1 <<< 1) + 1,
    (1 <<< 4) + (1 <<< 1) + 1,
    (1 <<< 5) + (1 <<< 2) + 1,
    (1 <<< 6) + (1 <<< 1) + 1,
    (1 <<< 7) + (1 <<< 3) + 1,
    (1 <<< 8) + (1 <<< 4) + (1 <<< 3) + (1 <<< 2) + 1,
    (1 <<< 9) + (1 <<< 4) + 1,
    (1 <<< 10) + (1 <<< 3) + 1,
    (1 <<< 11) + (1 <<< 2) + 1,
    (1 <<< 12) + (1 <<< 6) + (1 <<< 4) + (1 <<< 1) + 1,
    (1 <<< 13) + (1 <<< 4) + (1 <<< 3) + (1 <<< 1) + 1,
    (1 <<< 14) + (1 <<< 10) + (1 <<< 6) + (1 <<< 1) + 1,
    (1 <<< 15) + (1 <<< 1) + 1,
    (1 <<< 16) + (1 <<< 12) + (1 <<< 3) + (1 <<< 1) + 1,
    (1 <<< 17) + (1 <<< 3) + 1,
    (1 <<< 18) + (1 <<< 7) + 1,
    (1 <<< 19) + (1 <<< 5) + (1 <<< 2) + (1 <<< 1) + 1,
    (1 <<< 20) + (1 <<< 3) + 1,
    (1 <<< 21) + (1 <<< 2) + 1,
    (1 <<< 22) + (1 <<< 1) + 1,
    (1 <<< 23) + (1 <<< 5) + 1,
    (1 <<< 24) + (1 <<< 7) + (1 <<< 2) + (1 <<< 1) + 1,
    (1 <<< 25) + (1 <<< 3) + 1,
    (1 <<< 26) + (1 <<< 6) + (1 <<< 2) + (1 <<< 1) + 1,
    (1 <<< 27) + (1 <<< 5) + (1 <<< 2) + (1 <<< 1) + 1,
    (1 <<< 28) + (1 <<< 3) + 1,
    (1 <<< 29) + (1 <<< 1) + 1,
    (1 <<< 30) + (1 <<< 6) + (1 <<< 4) + (1 <<< 1) + 1,
    (1 <<< 31) + (1 <<< 3) + 1,
    (1 <<< 32) + (1 <<< 7) + (1 <<< 6) + (1 <<< 2) + 1]

/-- The constructor asserts the bounds of `n`. -/
structure GaloisField where
  n : ℕ
  one_le : 1 ≤ n
  le_32 : n ≤ 32

namespace GaloisField

variable (F : GaloisField)

def prim : ℕ := primTable.getD F.n 0

def add (a b : ℕ) : ℕ := a ^^^ b

def sub (a b : ℕ) : ℕ := a ^^^ b

/-- The loop of `Mul`, over at most as many steps as `b` has bits. -/
def mulLoop : ℕ → ℕ → ℕ → ℕ → ℕ
  | 0, _, r, _ => r
  | k+1, p, r, b =>
    if b = 0 then r
    else
      let r := if b &&& 1 ≠ 0 then r ^^^ p else r
      let p := (p <<< 1) % 2^64
      let p := if p &&& (1 <<< F.n) ≠ 0 then p ^^^ F.prim else p
      mulLoop k p r (b >>> 1)

def mul (a b : ℕ) : ℕ := F.mulLoop 64 a 0 b

/-- The loops that count bits. A shift by 64 is undefined. -/
def lengthLoop (a : ℕ) : ℕ → ℕ → Option ℕ
  | 0, _ => none
  | k+1, len => if 1 <<< len ≤ a then lengthLoop a k (len+1) else some len

/-- The loop of `LongDiv`, with the number of passes left and `blen` after the decrement. -/
def divLoop (b blen : ℕ) : ℕ → ℕ → ℕ → ℕ × ℕ
  | 0, q, r => (q,r)
  | i+1, q, r =>
    let q := (q <<< 1) % 2^64
    if r &&& (1 <<< (blen+i)) ≠ 0 then divLoop b blen i (q+1) (r ^^^ (b <<< i) % 2^64)
    else divLoop b blen i q r

/-- `LongDiv(a, b, q, r)`; `none` where an assertion fails or a shift is undefined. -/
def longDiv (a b : ℕ) : Option (ℕ × ℕ) :=
  if b = 0 then none
  else (lengthLoop a 64 0).bind fun alen => (lengthLoop b 64 0).map fun blen =>
    divLoop b (blen-1) (alen+1-blen) 0 a

/-- The loop of `ExtendedEuclid`, over a bound of steps. -/
def euclidLoop : ℕ → ℕ → ℕ → ℕ → ℕ → ℕ → ℕ → Option (ℕ × ℕ × ℕ)
  | 0, _, _, _, _, _, _ => none
  | k+1, g0, g1, u0, u1, v0, v1 =>
    if g1 = 0 then some (g0,u0,v0)
    else (longDiv g0 g1).bind fun qr =>
      euclidLoop k g1 qr.2 u1 (sub u0 (F.mul u1 qr.1)) v1 (sub v0 (F.mul v1 qr.1))

/-- `ExtendedEuclid(a, b, g, u, v)`. -/
def extendedEuclid (a b : ℕ) : Option (ℕ × ℕ × ℕ) := F.euclidLoop 65 a b 1 0 0 1

def inv (a : ℕ) : Option ℕ := (F.extendedEuclid a F.prim).map fun guv => guv.2.1

end GaloisField
end SketchMonitor
