import Mathlib.Data.Fin.Tuple.Basic
import Mathlib.Logic.Equiv.Fin.Basic
import SketchMonitor.LittleEndian

/-!
# Layouts of values in memory

A layout says how a value is read from a region of bytes and written over it. Writing keeps
the bytes that belong to no value, such as padding, so a layout is a lens on the region.
Layouts are put together from those of bytes and words by sequence, repetition and change
of representation, and the laws hold by construction.
-/

namespace SketchMonitor

structure Layout (α : Type*) where
  size : ℕ
  get : List UInt8 → α
  put : List UInt8 → α → List UInt8
  length_put : ∀ m a, m.length = size → (put m a).length = size
  get_put : ∀ m a, m.length = size → get (put m a) = a
  put_get : ∀ m, m.length = size → put m (get m) = m

namespace Layout

variable {α β : Type*}

/-- Bytes without a meaning for the value. -/
def pad (n : ℕ) : Layout Unit where
  size := n
  get _ := ()
  put m _ := m
  length_put _ _ h := h
  get_put _ _ _ := rfl
  put_get _ _ := rfl

def byte : Layout UInt8 where
  size := 1
  get m := m.headD 0
  put _ b := [b]
  length_put _ _ _ := rfl
  get_put _ _ _ := rfl
  put_get m h := by
    obtain ⟨b,rfl⟩ := List.length_eq_one_iff.mp h
    rfl

/-- A `uint32_t` in little endian order. -/
def word : Layout UInt32 where
  size := 4
  get m := UInt32.ofNat (LittleEndian.value m)
  put _ w := LittleEndian.bytes 4 w.toNat
  length_put _ _ _ := LittleEndian.length_bytes ..
  get_put _ w _ := by
    rw [LittleEndian.value_bytes w.toNat_lt]
    exact UInt32.ofNat_toNat
  put_get m h := by
    have hlt := LittleEndian.value_lt m
    rw [h] at hlt
    rw [UInt32.toNat_ofNat_of_lt' hlt, ← h]
    exact LittleEndian.bytes_value m

/-- One value behind the other. -/
def seq (L : Layout α) (M : Layout β) : Layout (α × β) where
  size := L.size + M.size
  get m := (L.get (m.take L.size),M.get (m.drop L.size))
  put m a := L.put (m.take L.size) a.1 ++ M.put (m.drop L.size) a.2
  length_put m a h := by
    rw [List.length_append, L.length_put _ _ (by simp; omega), M.length_put _ _ (by simp; omega)]
  get_put m a h := by
    have hleft := L.length_put (m.take L.size) a.1 (by simp; omega)
    rw [List.take_left' hleft, List.drop_left' hleft, L.get_put _ _ (by simp; omega),
      M.get_put _ _ (by simp; omega)]
  put_get m h := by
    rw [L.put_get _ (by simp; omega), M.put_get _ (by simp; omega), List.take_append_drop]

/-- The value in another representation. -/
def map (L : Layout α) (e : α ≃ β) : Layout β where
  size := L.size
  get m := e (L.get m)
  put m b := L.put m (e.symm b)
  length_put _ _ h := L.length_put _ _ h
  get_put _ _ h := by rw [L.get_put _ _ h, Equiv.apply_symm_apply]
  put_get _ h := by rw [Equiv.symm_apply_apply, L.put_get _ h]

/-- A value with bytes in front of it and behind it. -/
def padded (before : ℕ) (L : Layout α) (behind : ℕ) : Layout α :=
  (((pad before).seq L).seq (pad behind)).map ((Equiv.prodPUnit _).trans (Equiv.punitProd α))

@[simp] theorem size_padded (before : ℕ) (L : Layout α) (behind : ℕ) :
    (padded before L behind).size = before + L.size + behind := rfl

/-- The bytes that align what follows `n` bytes to a multiple of `a`. -/
def alignment (a n : ℕ) : ℕ := (a - n % a) % a

theorem dvd_add_alignment {a : ℕ} (ha : 0 < a) (n : ℕ) : a ∣ n + alignment a n := by
  have hlt := Nat.mod_lt n ha
  have hn := Nat.div_add_mod n a
  by_cases hzero : n % a = 0
  · rw [alignment, hzero, Nat.sub_zero, Nat.mod_self, add_zero]
    exact Nat.dvd_of_mod_eq_zero hzero
  · rw [alignment, Nat.mod_eq_of_lt (by omega)]
    exact ⟨n / a + 1,by rw [mul_add_one]; omega⟩

/-- `n` values of one layout. -/
def table (L : Layout α) : (n : ℕ) → Layout (Fin n → α)
  | 0 => (pad 0).map (Equiv.ofUnique Unit (Fin 0 → α))
  | n+1 => (L.seq (table L n)).map (Fin.consEquiv fun _ => α)

@[simp] theorem size_table (L : Layout α) (n : ℕ) : (table L n).size = n * L.size := by
  induction n with
  | zero => rw [zero_mul]; rfl
  | succ n ih =>
    change L.size + (table L n).size = (n + 1) * L.size
    rw [ih, add_one_mul, add_comm]

end Layout
end SketchMonitor
