import Mathlib.Tactic

/-!
# Little-endian numbers

Unsigned numbers in memory, the lowest byte first. A width and the bytes determine each
other as long as the number fits.
-/

namespace SketchMonitor
namespace LittleEndian

/-- The lowest `w` bytes of a number. -/
def bytes : ℕ → ℕ → List UInt8
  | 0, _ => []
  | w+1, n => UInt8.ofNat n :: bytes w (n / 256)

def value : List UInt8 → ℕ
  | [] => 0
  | b :: bs => b.toNat + 256 * value bs

@[simp] theorem length_bytes (w n : ℕ) : (bytes w n).length = w := by
  induction w generalizing n with
  | zero => rfl
  | succ w ih => rw [bytes, List.length_cons, ih]

@[simp] theorem drop_bytes {w k : ℕ} (n : ℕ) (h : w ≤ k) : (bytes w n).drop k = [] :=
  List.drop_eq_nil_of_le (by rwa [length_bytes])

@[simp] theorem take_bytes {w k : ℕ} (n : ℕ) (h : w ≤ k) : (bytes w n).take k = bytes w n :=
  List.take_of_length_le (by rwa [length_bytes])

theorem value_bytes {w n : ℕ} (h : n < 256^w) : value (bytes w n) = n := by
  induction w generalizing n with
  | zero =>
    obtain rfl : n = 0 := by simpa using h
    rfl
  | succ w ih =>
    rw [bytes, value, UInt8.toNat_ofNat', ih (by rw [pow_succ] at h; omega)]
    omega

theorem value_lt (bs : List UInt8) : value bs < 256^bs.length := by
  induction bs with
  | nil => exact Nat.one_pos
  | cons b bs ih =>
    have hb := b.toNat_lt
    rw [value, List.length_cons, pow_succ]
    omega

theorem bytes_value (bs : List UInt8) : bytes bs.length (value bs) = bs := by
  induction bs with
  | nil => rfl
  | cons b bs ih =>
    have hb := b.toNat_lt
    have hlow : UInt8.ofNat (value (b :: bs)) = b := by
      rw [← UInt8.toNat_inj, UInt8.toNat_ofNat', value]
      omega
    have hhigh : value (b :: bs) / 256 = value bs := by
      rw [value]
      omega
    rw [List.length_cons, bytes, hlow, hhigh, ih]

end LittleEndian
end SketchMonitor
