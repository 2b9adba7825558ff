import Mathlib.Analysis.SpecialFunctions.Log.Base
import Mathlib.Analysis.SpecialFunctions.Log.NegMulLog
import Mathlib.Tactic

/-!
# Sums of convex terms

A term such as `n * log2 n` starts at zero, never falls, and grows by ever larger
increments. A sum of such terms is then at most the term of the sum, also when
some summands are corrections that replace a part `e` by `c + e`, as long as no
corrected part exceeds the total.
-/

namespace SketchMonitor

structure ConvexTerm (f : ℕ → ℝ) : Prop where
  zero : f 0 = 0
  mono : Monotone f
  increments : ∀ a b c, a ≤ b → f (a+c) + f b ≤ f a + f (b+c)

namespace ConvexTerm

variable {f : ℕ → ℝ}

theorem nonneg (hf : ConvexTerm f) (n : ℕ) : 0 ≤ f n := by
  have h := hf.mono (Nat.zero_le n)
  rwa [hf.zero] at h

theorem add_le (hf : ConvexTerm f) (a b : ℕ) : f a + f b ≤ f (a+b) := by
  have h := hf.increments 0 b a (Nat.zero_le b)
  rwa [hf.zero, zero_add, zero_add, add_comm b a] at h

theorem finset_sum_le {ι : Type*} (hf : ConvexTerm f) (s : Finset ι) (x : ι → ℕ) :
    ∑ i ∈ s, f (x i) ≤ f (∑ i ∈ s, x i) := by
  classical
  induction s using Finset.induction_on with
  | empty => simp [hf.zero]
  | insert i s hi ih =>
    rw [Finset.sum_insert hi, Finset.sum_insert hi]
    exact (add_le_add_right ih _).trans (hf.add_le _ _)

theorem list_sum_le (hf : ConvexTerm f) (xs : List ℕ) : (xs.map f).sum ≤ f xs.sum := by
  induction xs with
  | nil => simp [hf.zero]
  | cons x xs ih =>
    rw [List.map_cons, List.sum_cons, List.sum_cons]
    exact (add_le_add_right ih _).trans (hf.add_le _ _)

theorem correction_nonneg (hf : ConvexTerm f) (c e : ℕ) : 0 ≤ f (c+e) - f e :=
  sub_nonneg.mpr (hf.mono (Nat.le_add_left e c))

/-- Corrections add at most what their increments add on top of the total. -/
theorem corrections_le {ι : Type*} (hf : ConvexTerm f) (s : Finset ι) (c e : ι → ℕ) {t : ℕ}
    (he : ∀ i ∈ s, e i ≤ t) :
    f t + ∑ i ∈ s, (f (c i + e i) - f (e i)) ≤ f (t + ∑ i ∈ s, c i) := by
  classical
  induction s using Finset.induction_on with
  | empty => simp
  | insert i s hi ih =>
    have hsum := ih fun j hj => he j (Finset.mem_insert_of_mem hj)
    have hle : e i ≤ t + ∑ j ∈ s, c j :=
      (he i (Finset.mem_insert_self i s)).trans (Nat.le_add_right _ _)
    have hstep := hf.increments (e i) (t + ∑ j ∈ s, c j) (c i) hle
    have hassoc : t + (c i + ∑ j ∈ s, c j) = t + ∑ j ∈ s, c j + c i := by ring
    rw [Finset.sum_insert hi, Finset.sum_insert hi, hassoc, add_comm (c i) (e i)]
    linarith

end ConvexTerm

/-- A convex function on the half line has growing increments. -/
theorem convexOn_increments {f : ℝ → ℝ} (hf : ConvexOn ℝ (Set.Ici 0) f) {a b c : ℝ} (ha : 0 ≤ a)
    (hab : a ≤ b) (hc : 0 ≤ c) : f (a+c) + f b ≤ f a + f (b+c) := by
  rcases (add_nonneg (sub_nonneg.mpr hab) hc).eq_or_lt with hzero | hpos
  · have hc' : c = 0 := by linarith
    have hb : b = a := by linarith
    simp [hb, hc']
  · -- both inner points are mixtures of the outer ones, with exchanged weights
    set w := c / (b-a+c) with hw
    have hw₀ : 0 ≤ w := by positivity
    have hw₁ : 0 ≤ 1-w := by
      rw [hw, sub_nonneg, div_le_one hpos]
      linarith
    have hmul : w * (b-a+c) = c := by
      rw [hw]
      field_simp
    have houter : b+c ∈ Set.Ici (0 : ℝ) := by
      simp only [Set.mem_Ici]
      linarith
    have hleft := hf.2 (x := a) ha houter hw₁ hw₀ (by ring)
    have hright := hf.2 (x := a) ha houter hw₀ hw₁ (by ring)
    simp only [smul_eq_mul] at hleft hright
    have hinner₁ : (1-w)*a + w*(b+c) = a+c := by linear_combination hmul
    have hinner₂ : w*a + (1-w)*(b+c) = b := by linear_combination -hmul
    rw [hinner₁] at hleft
    rw [hinner₂] at hright
    linarith

/-- `x * log2(x)` at the natural numbers. -/
theorem convexTerm_mul_logb : ConvexTerm fun n => n * Real.logb 2 n where
  zero := by simp
  mono := by
    intro m n hmn
    rcases Nat.eq_zero_or_pos m with rfl | hm
    · simp only [Nat.cast_zero, zero_mul]
      exact mul_nonneg (Nat.cast_nonneg n) (by
        rcases Nat.eq_zero_or_pos n with rfl | hn
        · simp
        · exact Real.logb_nonneg (by norm_num) (by exact_mod_cast hn))
    · have hcast : (m : ℝ) ≤ n := by exact_mod_cast hmn
      have hlog : Real.logb 2 m ≤ Real.logb 2 n :=
        Real.logb_le_logb_of_le (by norm_num) (by exact_mod_cast hm) hcast
      exact mul_le_mul hcast hlog (Real.logb_nonneg (by norm_num) (by exact_mod_cast hm))
        (Nat.cast_nonneg n)
  increments := by
    intro a b c hab
    have hlog := convexOn_increments Real.convexOn_mul_log (Nat.cast_nonneg a)
      (Nat.cast_le.mpr hab) (Nat.cast_nonneg c)
    have hpos : 0 < Real.log 2 := Real.log_pos (by norm_num)
    simp only [Real.logb, ← mul_div_assoc, ← add_div]
    push_cast
    exact div_le_div_of_nonneg_right hlog hpos.le

end SketchMonitor
