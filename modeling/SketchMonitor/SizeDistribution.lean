import Mathlib.Analysis.SpecialFunctions.Integrals.Basic
import Mathlib.Tactic

/-!
# The table of flow sizes

The request generators read a table of values with their cumulative probabilities, draw values
from it by interpolation and set the request rate by its average. `randRange` takes the quotient
`rand() / RAND_MAX`, and a `double` is an element of an ordered field: all results are about exact
arithmetic, and about the value that is returned, before it is converted to a size in bytes.
-/

namespace SketchMonitor

structure CdfEntry (R : Type*) where
  value : R
  cdf : R

structure CdfTable (R : Type*) where
  entries : List (CdfEntry R)
  minCdf : R
  maxCdf : R

namespace CdfTable

section Field

variable {R : Type*} [Field R] [LinearOrder R]

/-- `init_cdf`. -/
def init : CdfTable R := ⟨[],0,1⟩

/-- A line of the file. -/
def addEntry (t : CdfTable R) (e : CdfEntry R) : CdfTable R :=
  ⟨t.entries ++ [e],if t.minCdf > e.cdf then e.cdf else t.minCdf,
    if t.maxCdf < e.cdf then e.cdf else t.maxCdf⟩

def loadCdf (lines : List (CdfEntry R)) : CdfTable R := lines.foldl addEntry init

/-- The loop of `avg_cdf` behind an entry. -/
def avgFrom : CdfEntry R → List (CdfEntry R) → R
  | _, [] => 0
  | prev, e :: es => (e.value + prev.value) / (2 : ℕ) * (e.cdf - prev.cdf) + avgFrom e es

def avgCdf (t : CdfTable R) : R :=
  match t.entries with
  | [] => 0
  | e :: es => e.value / (2 : ℕ) * e.cdf + avgFrom e es

def interpolate (x x₁ y₁ x₂ y₂ : R) : R :=
  if x₁ = x₂ then (y₁ + y₂) / (2 : ℕ) else y₁ + (x - x₁) * (y₂ - y₁) / (x₂ - x₁)

def randRange (min max r : R) : R := min + r * (max - min)

/-- The loop of `gen_random_cdf` behind an entry, with the return after the last one. -/
def genFrom (x : R) : CdfEntry R → List (CdfEntry R) → R
  | prev, [] => prev.value
  | prev, e :: es =>
    if x ≤ e.cdf then interpolate x prev.cdf prev.value e.cdf e.value else genFrom x e es

/-- Without entries the value in front of the table is read. -/
def genRandomCdf (t : CdfTable R) (r : R) : Option R :=
  let x := randRange t.minCdf t.maxCdf r
  match t.entries with
  | [] => none
  | e :: es => some (if x ≤ e.cdf then interpolate x 0 0 e.cdf e.value else genFrom x e es)

/-- The second column of the file is a cumulative probability. -/
structure Cumulative (lines : List (CdfEntry R)) : Prop where
  sorted : lines.Pairwise fun a b => a.cdf ≤ b.cdf
  nonneg : ∀ e ∈ lines, 0 ≤ e.cdf
  le_one : ∀ e ∈ lines, e.cdf ≤ 1

theorem loadCdf_eq {lines : List (CdfEntry R)} (h : Cumulative lines) :
    loadCdf lines = ⟨lines,0,1⟩ := by
  obtain ⟨-,hnonneg,hle⟩ := h
  induction lines using List.reverseRecOn with
  | nil => rfl
  | append_singleton lines e ih =>
    have hinit := ih (fun e he => hnonneg e (List.mem_append_left _ he))
      fun e he => hle e (List.mem_append_left _ he)
    have hlow := hnonneg e (by simp)
    have hhigh := hle e (by simp)
    rw [loadCdf, List.foldl_concat, ← loadCdf, hinit, addEntry, if_neg hlow.not_gt,
      if_neg hhigh.not_gt]

/-- The table starts at the origin. -/
def origin : CdfEntry R := ⟨0,0⟩

omit [LinearOrder R] in
theorem avgCdf_eq (t : CdfTable R) : avgCdf t = avgFrom origin t.entries := by
  obtain ⟨entries,minCdf,maxCdf⟩ := t
  cases entries with
  | nil => rfl
  | cons e es => simp only [avgCdf, avgFrom, origin, add_zero, sub_zero]

theorem genRandomCdf_eq {lines : List (CdfEntry R)} (h : Cumulative lines) (hne : lines ≠ [])
    (r : R) : genRandomCdf (loadCdf lines) r = some (genFrom r origin lines) := by
  obtain ⟨e,es,rfl⟩ := List.exists_cons_of_ne_nil hne
  rw [loadCdf_eq h]
  simp only [genRandomCdf, randRange, genFrom, origin, sub_zero, mul_one, zero_add]

end Field

section Distribution

variable {R : Type*} [Field R] [LinearOrder R] [IsStrictOrderedRing R] {x x₁ y₁ x₂ y₂ : R}

theorem interpolate_le (h₁ : x₁ ≤ x) (h₂ : x ≤ x₂) (hy : y₁ ≤ y₂) :
    interpolate x x₁ y₁ x₂ y₂ ≤ y₂ := by
  rw [interpolate, Nat.cast_ofNat]
  split_ifs with h
  · linarith
  · have hpos : 0 < x₂ - x₁ := sub_pos.mpr (lt_of_le_of_ne (h₁.trans h₂) h)
    have hshare : (x - x₁) * (y₂ - y₁) / (x₂ - x₁) ≤ y₂ - y₁ := by
      rw [div_le_iff₀ hpos, mul_comm]
      exact mul_le_mul_of_nonneg_left (sub_le_sub_right h₂ _) (sub_nonneg.mpr hy)
    linarith

theorem lt_interpolate (h₁ : x₁ < x) (h₂ : x ≤ x₂) (hy : y₁ < y₂) :
    y₁ < interpolate x x₁ y₁ x₂ y₂ := by
  have hlt : x₁ < x₂ := h₁.trans_le h₂
  rw [interpolate, if_neg hlt.ne]
  have hshare : 0 < (x - x₁) * (y₂ - y₁) / (x₂ - x₁) :=
    div_pos (mul_pos (sub_pos.mpr h₁) (sub_pos.mpr hy)) (sub_pos.mpr hlt)
  linarith

/-- Behind an entry greater values follow. -/
theorem lt_genFrom (prev : CdfEntry R) (es : List (CdfEntry R))
    (hvalues : (prev :: es).Pairwise fun a b => a.value < b.value) (hx : prev.cdf < x)
    (hlast : x ≤ (es.getLastD prev).cdf) : prev.value < genFrom x prev es := by
  induction es generalizing prev with
  | nil => exact absurd hlast hx.not_ge
  | cons e es ih =>
    obtain ⟨hprev,hvalues⟩ := List.pairwise_cons.mp hvalues
    have hvalue := hprev e List.mem_cons_self
    rw [List.getLastD_cons] at hlast
    rw [genFrom]
    split_ifs with hle
    · exact lt_interpolate hx hle hvalue
    · exact hvalue.trans (ih e hvalues (not_le.mp hle) hlast)

omit [Field R] [IsStrictOrderedRing R] in
/-- Up to the first entry all entries are above. -/
theorem le_iff_of_first {e₀ e : CdfEntry R} {es : List (CdfEntry R)} {v : R}
    (hsorted : (e₀ :: es).Pairwise fun a b => a.cdf ≤ b.cdf)
    (hvalues : (e₀ :: es).Pairwise fun a b => a.value < b.value) (hv : v ≤ e₀.value)
    (hx : x ≤ e₀.cdf) (he : e ∈ e₀ :: es) : v ≤ e.value ↔ x ≤ e.cdf := by
  rcases List.mem_cons.mp he with rfl | he
  · exact iff_of_true hv hx
  · exact iff_of_true (hv.trans (List.rel_of_pairwise_cons hvalues he).le)
      (hx.trans (List.rel_of_pairwise_cons hsorted he))

theorem genFrom_le_iff (prev : CdfEntry R) (es : List (CdfEntry R))
    (hsorted : (prev :: es).Pairwise fun a b => a.cdf ≤ b.cdf)
    (hvalues : (prev :: es).Pairwise fun a b => a.value < b.value) (hx : prev.cdf < x)
    (hlast : x ≤ (es.getLastD prev).cdf) {e : CdfEntry R} (he : e ∈ es) :
    genFrom x prev es ≤ e.value ↔ x ≤ e.cdf := by
  induction es generalizing prev with
  | nil => exact absurd he List.not_mem_nil
  | cons e₀ es ih =>
    obtain ⟨hprev,hvalues⟩ := List.pairwise_cons.mp hvalues
    obtain ⟨-,hsorted⟩ := List.pairwise_cons.mp hsorted
    rw [List.getLastD_cons] at hlast
    rw [genFrom]
    split_ifs with hle
    · exact le_iff_of_first hsorted hvalues
        (interpolate_le hx.le hle (hprev e₀ List.mem_cons_self).le) hle he
    · rcases List.mem_cons.mp he with rfl | he
      · exact iff_of_false (lt_genFrom e es hvalues (not_le.mp hle) hlast).not_ge hle
      · exact ih e₀ hsorted hvalues (not_le.mp hle) hlast he

/-- In exact arithmetic, what is drawn has the distribution of the table. -/
theorem genRandomCdf_le_iff (lines : List (CdfEntry R)) (hlines : Cumulative lines)
    (hne : lines ≠ []) (hvalues : lines.Pairwise fun a b => a.value < b.value)
    (hnonneg : ∀ e ∈ lines, 0 ≤ e.value) (hlast : (lines.getLast hne).cdf = 1) (r : R) (h₀ : 0 ≤ r)
    (h₁ : r ≤ 1) : ∃ v, genRandomCdf (loadCdf lines) r = some v ∧
      ∀ e ∈ lines, v ≤ e.value ↔ r ≤ e.cdf := by
  refine ⟨genFrom r origin lines,genRandomCdf_eq hlines hne r,fun e he => ?_⟩
  obtain ⟨e₀,es,rfl⟩ := List.exists_cons_of_ne_nil hne
  rw [List.getLast_eq_getLastD] at hlast
  have hend : r ≤ (es.getLastD e₀).cdf := hlast.symm ▸ h₁
  rw [genFrom]
  split_ifs with hle
  · exact le_iff_of_first hlines.sorted hvalues
      (interpolate_le h₀ hle (hnonneg e₀ List.mem_cons_self)) hle he
  · rcases List.mem_cons.mp he with rfl | he
    · exact iff_of_false (lt_genFrom e es hvalues (not_le.mp hle) hend).not_ge hle
    · exact genFrom_le_iff e₀ es hlines.sorted hvalues (not_le.mp hle) hend he

theorem genRandomCdf_le_iff_three_entries :
    let lines : List (CdfEntry ℚ) := [⟨0,0⟩,⟨10,1/2⟩,⟨100,1⟩]
    ∃ v, genRandomCdf (loadCdf lines) (3/4) = some v ∧
      ∀ e ∈ lines, v ≤ e.value ↔ (3/4 : ℚ) ≤ e.cdf := by
  intro lines
  have hlines : Cumulative lines := by
    refine ⟨?_,?_,?_⟩ <;> norm_num [lines]
  exact genRandomCdf_le_iff lines hlines (List.cons_ne_nil _ _) (by norm_num [lines])
    (by norm_num [lines]) (by norm_num [lines]) (3/4) (by norm_num) (by norm_num)

end Distribution

section Mean

open MeasureTheory Set

variable {f g₁ g₂ : ℝ → ℝ} {a b c : ℝ}

/-- A function that follows one function up to `b` and another one from there. -/
theorem integral_pieces (hab : a ≤ b) (hbc : b ≤ c) (h₁ : EqOn f g₁ (Ioo a b))
    (h₂ : EqOn f g₂ (Ioo b c)) (hg₁ : IntervalIntegrable g₁ volume a b)
    (hg₂ : IntervalIntegrable g₂ volume b c) :
    IntervalIntegrable f volume a c ∧
      ∫ x in a..c, f x = (∫ x in a..b, g₁ x) + ∫ x in b..c, g₂ x := by
  have hf₁ : IntervalIntegrable f volume a b := by
    refine hg₁.congr_uIoo ?_
    rw [uIoo_of_le hab]
    exact h₁.symm
  have hf₂ : IntervalIntegrable f volume b c := by
    refine hg₂.congr_uIoo ?_
    rw [uIoo_of_le hbc]
    exact h₂.symm
  refine ⟨hf₁.trans hf₂,?_⟩
  rw [← intervalIntegral.integral_add_adjacent_intervals hf₁ hf₂,
    intervalIntegral.integral_congr_Ioo_of_le hab h₁,
    intervalIntegral.integral_congr_Ioo_of_le hbc h₂]

/-- The area under a line between two points, which may lie above each other. -/
theorem integral_interpolate (x₁ y₁ x₂ y₂ : ℝ) :
    IntervalIntegrable (fun x => interpolate x x₁ y₁ x₂ y₂) volume x₁ x₂ ∧
      ∫ x in x₁..x₂, interpolate x x₁ y₁ x₂ y₂ = (y₂ + y₁) / 2 * (x₂ - x₁) := by
  by_cases h : x₁ = x₂
  · subst h
    simp
  · have hne : x₂ - x₁ ≠ 0 := sub_ne_zero.mpr (Ne.symm h)
    simp only [interpolate, if_neg h]
    constructor
    · exact Continuous.intervalIntegrable (by fun_prop) _ _
    · set m := (y₂ - y₁) / (x₂ - x₁) with hm
      have hslope : m * (x₂ - x₁) = y₂ - y₁ := div_mul_cancel₀ _ hne
      have hline (x : ℝ) :
          y₁ + (x - x₁) * (y₂ - y₁) / (x₂ - x₁) = y₁ - m * x₁ + m * x := by
        rw [mul_div_assoc, ← hm]
        ring
      simp only [hline]
      rw [intervalIntegral.integral_add (Continuous.intervalIntegrable (by fun_prop) _ _)
        (Continuous.intervalIntegrable (by fun_prop) _ _), intervalIntegral.integral_const,
        intervalIntegral.integral_const_mul, integral_id, smul_eq_mul]
      linear_combination (x₂ - x₁) / 2 * hslope

/-- The area under what the loop returns, from the last entry passed on. -/
theorem integral_genFrom (prev : CdfEntry ℝ) (es : List (CdfEntry ℝ))
    (hsorted : (prev :: es).Pairwise fun a b => a.cdf ≤ b.cdf)
    (hle : ∀ e ∈ prev :: es, e.cdf ≤ 1) :
    IntervalIntegrable (fun x => genFrom x prev es) volume prev.cdf 1 ∧
      ∫ x in prev.cdf..1, genFrom x prev es =
        avgFrom prev es + (1 - (es.getLastD prev).cdf) * (es.getLastD prev).value := by
  induction es generalizing prev with
  | nil => simp [genFrom, avgFrom]
  | cons e es ih =>
    obtain ⟨hprev,hsorted⟩ := List.pairwise_cons.mp hsorted
    obtain ⟨-,hle⟩ := List.forall_mem_cons.mp hle
    obtain ⟨hrest,hvalue⟩ := ih e hsorted hle
    obtain ⟨hline,harea⟩ := integral_interpolate prev.cdf prev.value e.cdf e.value
    have hpieces := integral_pieces (f := fun x => genFrom x prev (e :: es))
      (hprev e List.mem_cons_self) (hle e List.mem_cons_self)
      (fun x hx => if_pos hx.2.le) (fun x hx => if_neg hx.1.not_ge) hline hrest
    refine ⟨hpieces.1,?_⟩
    rw [hpieces.2, harea, hvalue, avgFrom, Nat.cast_ofNat, List.getLastD_cons, add_assoc]

/-- The mean of the values drawn. It is the average that the rate is computed from exactly if the
table ends with probability 1 or with the value 0. -/
theorem integral_genRandomCdf (lines : List (CdfEntry ℝ)) (hlines : Cumulative lines)
    (hne : lines ≠ []) :
    IntervalIntegrable (fun r => (genRandomCdf (loadCdf lines) r).getD 0) volume 0 1 ∧
      ∫ r in (0 : ℝ)..1, (genRandomCdf (loadCdf lines) r).getD 0 =
        avgCdf (loadCdf lines) + (1 - (lines.getLast hne).cdf) * (lines.getLast hne).value ∧
      (∫ r in (0 : ℝ)..1, (genRandomCdf (loadCdf lines) r).getD 0 = avgCdf (loadCdf lines) ↔
        (lines.getLast hne).cdf = 1 ∨ (lines.getLast hne).value = 0) := by
  have hgen (r : ℝ) : (genRandomCdf (loadCdf lines) r).getD 0 = genFrom r origin lines := by
    rw [genRandomCdf_eq hlines hne, Option.getD_some]
  have hsorted : (origin :: lines).Pairwise fun a b : CdfEntry ℝ => a.cdf ≤ b.cdf :=
    List.pairwise_cons.mpr ⟨hlines.nonneg,hlines.sorted⟩
  have harea := integral_genFrom origin lines hsorted
    (List.forall_mem_cons.mpr ⟨zero_le_one,hlines.le_one⟩)
  rw [List.getLastD_eq_getLast?, List.getLast?_eq_some_getLast hne, Option.getD_some] at harea
  simp only [hgen]
  rw [avgCdf_eq, loadCdf_eq hlines]
  refine ⟨harea.1,harea.2,?_⟩
  rw [show ∫ r in (0 : ℝ)..1, genFrom r origin lines = _ from harea.2, add_eq_left, mul_eq_zero,
    sub_eq_zero, eq_comm]

theorem integral_genRandomCdf_three_entries :
    let lines : List (CdfEntry ℝ) := [⟨0,0⟩,⟨10,1/2⟩,⟨100,1⟩]
    ∫ r in (0 : ℝ)..1, (genRandomCdf (loadCdf lines) r).getD 0 = 30 := by
  intro lines
  have hlines : Cumulative lines := by
    refine ⟨?_,?_,?_⟩ <;> norm_num [lines]
  rw [(integral_genRandomCdf lines hlines (List.cons_ne_nil _ _)).2.1, avgCdf_eq, loadCdf_eq hlines]
  norm_num [lines, avgFrom, origin]

end Mean

end CdfTable
end SketchMonitor
