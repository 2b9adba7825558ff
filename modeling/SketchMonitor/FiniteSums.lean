import Mathlib.Algebra.BigOperators.Fin
import Mathlib.Data.Fintype.BigOperators
import Mathlib.Tactic

/-!
# Sums and value counts of finite tables

A table is a function on a finite index type. Changing one entry changes a sum
over the table by the difference of two summands, and changes the number of
entries with a given value in the same way.
-/

namespace SketchMonitor
namespace FiniteSums

open Finset

variable {ι M A : Type*} [Fintype ι] [AddCommMonoid M]

/-- Two families that agree away from one index: their sums differ by the two
summands at that index. -/
theorem sum_add_eq_of_agree [DecidableEq ι] {f g : ι → M} (a : ι) (h : ∀ j, j ≠ a → f j = g j) :
    ∑ j, f j + g a = ∑ j, g j + f a := by
  have he : ∑ j ∈ univ.erase a, f j = ∑ j ∈ univ.erase a, g j :=
    sum_congr rfl fun j hj => h j (ne_of_mem_erase hj)
  rw [← add_sum_erase univ f (mem_univ a), ← add_sum_erase univ g (mem_univ a), he]
  abel

theorem sum_update_add [DecidableEq ι] (w : A → M) (f : ι → A) (a : ι) (x : A) :
    ∑ j, w (Function.update f a x j) + w (f a) = ∑ j, w (f j) + w x := by
  have h := sum_add_eq_of_agree (f := fun j => w (Function.update f a x j))
    (g := fun j => w (f j)) a fun j hj => by simp [hj]
  simpa using h

/-- The number of entries of a table with value `v`. -/
def valueCount [DecidableEq A] (f : ι → A) (v : A) : ℕ := #{i | f i = v}

theorem valueCount_eq_sum [DecidableEq A] (f : ι → A) (v : A) :
    valueCount f v = ∑ i, if f i = v then 1 else 0 := by
  rw [valueCount, card_filter]

theorem valueCount_update [DecidableEq ι] [DecidableEq A] (f : ι → A) (a : ι) (x v : A) :
    valueCount (Function.update f a x) v + (if f a = v then 1 else 0) =
      valueCount f v + if x = v then 1 else 0 := by
  simp only [valueCount_eq_sum]
  exact sum_update_add (fun y => if y = v then 1 else 0) f a x

@[simp] theorem valueCount_const [DecidableEq A] (x v : A) :
    valueCount (fun _ : ι => x) v = if x = v then Fintype.card ι else 0 := by
  by_cases h : x = v <;> simp [valueCount, h]

/-- Summing over the entries is summing over the values, each taken with its count. -/
theorem sum_eq_sum_valueCount [Fintype A] [DecidableEq A] (f : ι → A) (w : A → M) :
    ∑ i, w (f i) = ∑ v, valueCount f v • w v := by
  rw [← sum_fiberwise' univ f w]
  exact sum_congr rfl fun v _ => by rw [sum_const, valueCount]

/-- One value's weighted count is part of the sum over the entries. -/
theorem valueCount_mul_le_sum [Fintype A] [DecidableEq A] (f : ι → A) (w : A → ℕ) (v : A) :
    valueCount f v * w v ≤ ∑ i, w (f i) := by
  rw [sum_eq_sum_valueCount]
  exact single_le_sum (f := fun v => valueCount f v • w v) (fun _ _ => Nat.zero_le _) (mem_univ v)

theorem sum_map_flatMap {B : Type*} (xs : List B) (g : B → List A) (φ : A → M) :
    ((xs.flatMap g).map φ).sum = (xs.map fun x => ((g x).map φ).sum).sum := by
  induction xs with
  | nil => rfl
  | cons x xs ih => simp [ih]

theorem sum_map_flatMap_finRange {n : ℕ} (g : Fin n → List A) (φ : A → M) :
    (((List.finRange n).flatMap g).map φ).sum = ∑ i, ((g i).map φ).sum := by
  rw [sum_map_flatMap, Fin.sum_univ_def]

/-- Summing an indicator counts the entries it selects. -/
theorem sum_map_indicator (p : A → Prop) [DecidablePred p] (xs : List A) :
    (xs.map fun x => if p x then 1 else 0).sum = xs.countP fun x => decide (p x) := by
  induction xs with
  | nil => rfl
  | cons x xs ih =>
    rw [List.map_cons, List.sum_cons, List.countP_cons, ih, add_comm]
    simp

/-- A sum over a list, read through its indices. -/
theorem sum_map_eq_sum_range (xs : List A) (d : A) (φ : A → M) :
    (xs.map φ).sum = ∑ i ∈ range xs.length, φ (xs.getD i d) := by
  induction xs with
  | nil => rfl
  | cons x xs ih => simp [sum_range_succ', ih, add_comm]

theorem sum_map_range (n : ℕ) (φ : ℕ → M) :
    ((List.range n).map φ).sum = ∑ i ∈ range n, φ i := by
  induction n with
  | zero => rfl
  | succ n ih => simp [List.range_succ, sum_range_succ, ih]

/-- Adding to one entry after the other adds up in each entry. -/
theorem foldl_update_add {B : Type*} [DecidableEq B] (xs : List B) (f : B → M) (a : M) (v : B) :
    xs.foldl (fun f x => Function.update f x (f x + a)) f v = f v + xs.count v • a := by
  induction xs generalizing f with
  | nil => simp
  | cons x xs ih =>
    rw [List.foldl_cons, ih]
    by_cases hx : x = v
    · subst hx
      rw [Function.update_self, List.count_cons_self, succ_nsmul']
      abel
    · rw [Function.update_of_ne (Ne.symm hx), List.count_cons_of_ne hx]

/-- A loop whose rounds each add to the entries of a table. -/
theorem foldl_add_apply {B C : Type*} (g : (B → M) → C → B → M) (d : C → B → M)
    (h : ∀ f x v, g f x v = f v + d x v) (xs : List C) (f : B → M) (v : B) :
    xs.foldl g f v = f v + (xs.map fun x => d x v).sum := by
  induction xs generalizing f with
  | nil => simp
  | cons x xs ih => rw [List.foldl_cons, ih, h, List.map_cons, List.sum_cons, add_assoc]

/-- Summing over a list is summing over its values, each taken with its count. -/
theorem sum_count_nsmul (xs : List ℕ) (n : ℕ) (hn : ∀ x ∈ xs, x < n) (φ : ℕ → M) :
    ∑ i ∈ range n, xs.count i • φ i = (xs.map φ).sum := by
  induction xs with
  | nil => simp
  | cons x xs ih =>
    have hx : x ∈ range n := mem_range.mpr (hn x (by simp))
    rw [List.map_cons, List.sum_cons, ← ih fun y hy => hn y (by simp [hy]),
      ← add_sum_erase _ _ hx, ← add_sum_erase _ (fun i => xs.count i • φ i) hx,
      List.count_cons_self, succ_nsmul', add_assoc]
    congr 2
    refine sum_congr rfl fun i hi => ?_
    rw [List.count_cons_of_ne (ne_of_mem_erase hi).symm]

theorem sum_count_nsmul_pos (xs : List ℕ) {n : ℕ} (hn : ∀ x ∈ xs, x < n) (φ : ℕ → M)
    (hzero : xs.count 0 • φ 0 = 0) : ∑ i ∈ Ico 1 n, xs.count i • φ i = (xs.map φ).sum := by
  rcases Nat.eq_zero_or_pos n with rfl | hpos
  · cases xs with
    | nil => simp
    | cons x xs => exact absurd (hn x (by simp)) (Nat.not_lt_zero x)
  · rw [← sum_count_nsmul xs n hn, range_eq_Ico,
      sum_eq_sum_Ico_succ_bot hpos (fun i => xs.count i • φ i), hzero, zero_add]

/-- A sum cut short and made of smaller summands reaches the full sum only if nothing
was cut and no summand is smaller. -/
theorem sum_range_eq_iff_of_le {f g : ℕ → ℕ} {n m : ℕ} (hnm : n ≤ m) (hfg : ∀ i, f i ≤ g i)
    (hpos : ∀ i, 0 < g i) :
    ∑ i ∈ range n, f i = ∑ i ∈ range m, g i ↔ n = m ∧ ∀ i < n, f i = g i := by
  have hle : ∑ i ∈ range n, f i ≤ ∑ i ∈ range n, g i := sum_le_sum fun i _ => hfg i
  constructor
  · intro h
    have hn : n = m := by
      by_contra hne
      have hlt : ∑ i ∈ range n, g i < ∑ i ∈ range m, g i :=
        sum_lt_sum_of_subset (range_mono hnm) (mem_range.mpr (lt_of_le_of_ne hnm hne))
          (by simp) (hpos n) fun i _ _ => Nat.zero_le _
      omega
    subst n
    exact ⟨rfl,fun i hi => (sum_eq_sum_iff_of_le fun i _ => hfg i).mp h i (mem_range.mpr hi)⟩
  · rintro ⟨rfl,h⟩
    exact sum_congr rfl fun i hi => h i (mem_range.mp hi)

/-- Setting one element of a list. -/
theorem sum_map_set {xs : List A} {i : ℕ} {x : A} (hx : xs[i]? = some x) (y : A) (φ : A → M) :
    ((xs.set i y).map φ).sum + φ x = (xs.map φ).sum + φ y := by
  induction xs generalizing i with
  | nil => simp at hx
  | cons z xs ih =>
    cases i with
    | zero =>
      obtain rfl : z = x := by simpa using hx
      simp only [List.set_cons_zero, List.map_cons, List.sum_cons]
      abel
    | succ i =>
      have hrest := ih (by simpa using hx)
      simp only [List.set_cons_succ, List.map_cons, List.sum_cons, add_assoc, hrest]

/-- The selected elements in turn, as a loop with a test collects them. -/
theorem map_filter_eq_flatMap {α β : Type*} (xs : List α) (p : α → Bool) (f : α → β) :
    (xs.filter p).map f = xs.flatMap fun x => if p x then [f x] else [] := by
  induction xs with
  | nil => rfl
  | cons x xs ih => by_cases hx : p x <;> simp [hx, ih]

/-- A list read index by index. -/
theorem map_range_getD {α β : Type*} (xs : List α) (d : α) (φ : α → β) :
    ((List.range xs.length).map fun i => φ (xs.getD i d)) = xs.map φ := by
  refine List.ext_getElem (by simp) fun i hi _ => ?_
  have hi' : i < xs.length := by simpa using hi
  simp [hi']

end FiniteSums
end SketchMonitor
