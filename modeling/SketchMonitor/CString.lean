import Mathlib.Data.List.Basic
import Mathlib.Tactic

/-!
# C string comparison and copying on byte blocks

`strncmp` and `strncpy` as the C library documents them, on blocks given as
lists of bytes. Both stop at the first zero byte, so what they see of a block is
its zero-padded copy: `strncmp_eq_zero_iff` says that two blocks compare equal
exactly when their copies are the same block.
-/

namespace SketchMonitor
namespace CString

/-- Compare at most `n` bytes, as unsigned characters, up to a common zero byte. -/
def strncmp : ℕ → List UInt8 → List UInt8 → ℤ
  | n+1, a :: as, b :: bs =>
    if a = b then if a = 0 then 0 else strncmp n as bs
    else (a.toNat : ℤ) - b.toNat
  | _, _, _ => 0

/-- The `n` bytes written to the destination: the source up to its first zero
byte, then zeros. -/
def strncpy : ℕ → List UInt8 → List UInt8
  | 0, _ => []
  | n+1, [] => List.replicate (n+1) 0
  | n+1, c :: cs => if c = 0 then List.replicate (n+1) 0 else c :: strncpy n cs

/-- No byte after a zero byte differs from zero. -/
def ZeroPadded : List UInt8 → Prop
  | [] => True
  | c :: cs => if c = 0 then ∀ b ∈ cs, b = 0 else ZeroPadded cs

instance zeroPaddedDecidable : (s : List UInt8) → Decidable (ZeroPadded s)
  | [] => inferInstanceAs (Decidable True)
  | c :: cs =>
    have := zeroPaddedDecidable cs
    inferInstanceAs (Decidable (if c = 0 then ∀ b ∈ cs, b = 0 else ZeroPadded cs))

@[simp] theorem strncpy_length (n : ℕ) (s : List UInt8) : (strncpy n s).length = n := by
  induction n generalizing s with
  | zero => rfl
  | succ n ih =>
    cases s with
    | nil => simp [strncpy]
    | cons c cs => by_cases h : c = 0 <;> simp [strncpy, h, ih]

theorem strncpy_cons (n : ℕ) (c : UInt8) (cs : List UInt8) :
    strncpy (n+1) (c :: cs) = c :: if c = 0 then List.replicate n 0 else strncpy n cs := by
  by_cases h : c = 0 <;> simp [strncpy, h, List.replicate_succ]

theorem strncpy_replicate (n : ℕ) : strncpy n (List.replicate n 0) = List.replicate n 0 := by
  cases n with
  | zero => rfl
  | succ n => simp [strncpy, List.replicate_succ]

@[simp] theorem strncpy_strncpy (n : ℕ) (s : List UInt8) :
    strncpy n (strncpy n s) = strncpy n s := by
  induction n generalizing s with
  | zero => rfl
  | succ n ih =>
    cases s with
    | nil => simpa [strncpy] using strncpy_replicate (n+1)
    | cons c cs =>
      by_cases h : c = 0
      · simpa [strncpy, h] using strncpy_replicate (n+1)
      · simp [strncpy, h, ih]

/-- The comparison sees exactly what the copy keeps. -/
theorem strncmp_eq_zero_iff (n : ℕ) (s t : List UInt8) (hs : s.length = n) (ht : t.length = n) :
    strncmp n s t = 0 ↔ strncpy n s = strncpy n t := by
  induction n generalizing s t with
  | zero => simp [strncmp, strncpy]
  | succ n ih =>
    obtain ⟨a, as, rfl⟩ := List.exists_cons_of_length_eq_add_one hs
    obtain ⟨b, bs, rfl⟩ := List.exists_cons_of_length_eq_add_one ht
    have hn := ih as bs (by simpa using hs) (by simpa using ht)
    by_cases hab : a = b
    · subst b
      by_cases ha : a = 0 <;> simp [strncmp, strncpy, ha, hn]
    · have hne : (a.toNat : ℤ) - b.toNat ≠ 0 := by
        intro h
        exact hab (UInt8.toNat_inj.mp (by omega))
      rw [strncpy_cons, strncpy_cons]
      simp [strncmp, hab, hne]

theorem strncpy_eq_self_iff (s : List UInt8) : strncpy s.length s = s ↔ ZeroPadded s := by
  induction s with
  | nil => simp [strncpy, ZeroPadded]
  | cons c cs ih =>
    by_cases h : c = 0
    · simp [strncpy, ZeroPadded, h, List.replicate_succ, eq_comm, List.eq_replicate_iff]
    · simp [strncpy, ZeroPadded, h, ih]

/-- A block without zero bytes is copied whole. -/
theorem ZeroPadded.of_ne_zero (s : List UInt8) (h : ∀ c ∈ s, c ≠ 0) : ZeroPadded s := by
  induction s with
  | nil => trivial
  | cons c cs ih =>
    have hc : c ≠ 0 := h c (by simp)
    simpa [ZeroPadded, hc] using ih fun b hb => h b (by simp [hb])

end CString
end SketchMonitor
