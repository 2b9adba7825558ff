import Mathlib.Analysis.SpecialFunctions.Log.Basic
import Mathlib.Data.Nat.Factorial.Basic
import Mathlib.Tactic

/-!
# Expectation maximisation for Poisson mixtures

An observation comes from one of finitely many hidden configurations. Items of each
size arrive independently at a rate of that size, and a configuration says how many
of each size there are. One step shares every observation among its configurations
in proportion to their weights and takes as new rate of a size the mean number of
its items. `logLikelihood_le_step` says that this never lowers the likelihood.
-/

namespace SketchMonitor
namespace PoissonMixture

open Finset

/-- Gibbs' inequality for unnormalised weights. -/
theorem sum_mul_log_le {B : Type*} (s : Finset B) (p q : B → ℝ) (hp : ∀ b ∈ s, 0 ≤ p b)
    (hq : ∀ b ∈ s, 0 ≤ q b) (hpq : ∀ b ∈ s, 0 < p b → 0 < q b) (hsum : 0 < ∑ b ∈ s, p b) :
    ∑ b ∈ s, p b / (∑ b ∈ s, p b) * (Real.log (q b) - Real.log (p b)) ≤
      Real.log (∑ b ∈ s, q b) - Real.log (∑ b ∈ s, p b) := by
  set P := ∑ b ∈ s, p b with hP
  set Q := ∑ b ∈ s, q b with hQ
  obtain ⟨b₀,hb₀,hpos₀⟩ : ∃ b ∈ s, 0 < p b := by
    by_contra hnone
    push Not at hnone
    exact absurd hsum (not_lt.mpr (sum_nonpos hnone))
  have hQpos : 0 < Q := (hpq b₀ hb₀ hpos₀).trans_le (single_le_sum hq hb₀)
  have hterm : ∀ b ∈ s, p b / P * (Real.log (q b) - Real.log (p b)) ≤
      p b / P * (Real.log Q - Real.log P) + (q b / Q - p b / P) := by
    intro b hb
    rcases (hp b hb).eq_or_lt with hzero | hpos
    · simpa [← hzero] using div_nonneg (hq b hb) hQpos.le
    · have hqpos := hpq b hb hpos
      have hratio : 0 < q b / Q / (p b / P) := by positivity
      have hlog := Real.log_le_sub_one_of_pos hratio
      rw [Real.log_div (by positivity) (by positivity), Real.log_div hqpos.ne' hQpos.ne',
        Real.log_div hpos.ne' hsum.ne'] at hlog
      have hmul := mul_le_mul_of_nonneg_left hlog (by positivity : 0 ≤ p b / P)
      have hcancel : p b / P * (q b / Q / (p b / P) - 1) = q b / Q - p b / P := by
        field_simp
      rw [hcancel] at hmul
      linarith
  calc ∑ b ∈ s, p b / P * (Real.log (q b) - Real.log (p b))
      ≤ ∑ b ∈ s, (p b / P * (Real.log Q - Real.log P) + (q b / Q - p b / P)) := sum_le_sum hterm
    _ = Real.log Q - Real.log P := by
        rw [sum_add_distrib, sum_sub_distrib, ← sum_mul, ← sum_div, ← sum_div, ← hP, ← hQ,
          div_self hsum.ne', div_self hQpos.ne']
        ring

/-- Observations with their multiplicities and possible configurations. -/
structure Model (ι B S : Type*) where
  obs : Finset ι
  count : ι → ℝ
  hidden : ι → Finset B
  sizes : Finset S
  items : B → S → ℕ
  count_nonneg : ∀ i ∈ obs, 0 ≤ count i
  total_pos : 0 < ∑ i ∈ obs, count i

namespace Model

variable {ι B S : Type*} (m : Model ι B S)

def total : ℝ := ∑ i ∈ m.obs, m.count i

/-- The weight of a configuration, but for the common factor of all of them. -/
noncomputable def weight (r : S → ℝ) (b : B) : ℝ :=
  ∏ s ∈ m.sizes, r s ^ m.items b s / (m.items b s).factorial

noncomputable def evidence (r : S → ℝ) (i : ι) : ℝ := ∑ b ∈ m.hidden i, m.weight r b

noncomputable def likelihood (r : S → ℝ) (i : ι) : ℝ :=
  Real.exp (-∑ s ∈ m.sizes, r s) * m.evidence r i

noncomputable def logLikelihood (r : S → ℝ) : ℝ :=
  ∑ i ∈ m.obs, m.count i * Real.log (m.likelihood r i)

/-- The new rates: the mean number of items under the posterior weights. -/
noncomputable def step (r : S → ℝ) (s : S) : ℝ :=
  (∑ i ∈ m.obs, m.count i * ∑ b ∈ m.hidden i, m.weight r b / m.evidence r i * m.items b s) / m.total

variable {m} {r r' : S → ℝ}

theorem weight_nonneg (hr : ∀ s ∈ m.sizes, 0 ≤ r s) (b : B) : 0 ≤ m.weight r b :=
  prod_nonneg fun s hs => div_nonneg (pow_nonneg (hr s hs) _) (Nat.cast_nonneg _)

theorem weight_pos_iff (hr : ∀ s ∈ m.sizes, 0 ≤ r s) (b : B) :
    0 < m.weight r b ↔ ∀ s ∈ m.sizes, 0 < m.items b s → 0 < r s := by
  rw [(weight_nonneg hr b).lt_iff_ne', weight, prod_ne_zero_iff]
  refine forall₂_congr fun s hs => ?_
  have hfact : ((m.items b s).factorial : ℝ) ≠ 0 := Nat.cast_ne_zero.mpr (Nat.factorial_ne_zero _)
  rw [div_ne_zero_iff, and_iff_left hfact, (hr s hs).lt_iff_ne', Nat.pos_iff_ne_zero, ne_eq,
    pow_eq_zero_iff']
  tauto

theorem evidence_nonneg (hr : ∀ s ∈ m.sizes, 0 ≤ r s) (i : ι) : 0 ≤ m.evidence r i :=
  sum_nonneg fun b _ => weight_nonneg hr b

theorem exists_weight_pos {i : ι} (h : 0 < m.evidence r i) :
    ∃ b ∈ m.hidden i, 0 < m.weight r b := by
  by_contra hnone
  push Not at hnone
  exact absurd h (not_lt.mpr (sum_nonpos hnone))

theorem log_weight_sub {b : B} (hr : ∀ s ∈ m.sizes, 0 < m.items b s → 0 < r s)
    (hr' : ∀ s ∈ m.sizes, 0 < m.items b s → 0 < r' s) :
    Real.log (m.weight r' b) - Real.log (m.weight r b) =
      ∑ s ∈ m.sizes, m.items b s * (Real.log (r' s) - Real.log (r s)) := by
  have hfact (s : S) : ((m.items b s).factorial : ℝ) ≠ 0 :=
    Nat.cast_ne_zero.mpr (Nat.factorial_ne_zero _)
  have hpow {r : S → ℝ} (hr : ∀ s ∈ m.sizes, 0 < m.items b s → 0 < r s) (s : S) (hs : s ∈ m.sizes) :
      r s ^ m.items b s ≠ 0 := by
    rcases Nat.eq_zero_or_pos (m.items b s) with hzero | hpos
    · simp [hzero]
    · exact pow_ne_zero _ (hr s hs hpos).ne'
  rw [weight, weight, Real.log_prod fun s hs => div_ne_zero (hpow hr' s hs) (hfact s),
    Real.log_prod fun s hs => div_ne_zero (hpow hr s hs) (hfact s), ← sum_sub_distrib]
  refine sum_congr rfl fun s hs => ?_
  rw [Real.log_div (hpow hr' s hs) (hfact s), Real.log_div (hpow hr s hs) (hfact s), Real.log_pow,
    Real.log_pow]
  ring

theorem likelihood_congr (h : ∀ s ∈ m.sizes, r s = r' s) (i : ι) :
    m.likelihood r i = m.likelihood r' i := by
  have hweight (b : B) : m.weight r b = m.weight r' b := prod_congr rfl fun s hs => by rw [h s hs]
  rw [likelihood, likelihood, evidence, evidence, sum_congr rfl h,
    sum_congr rfl fun b _ => hweight b]

theorem logLikelihood_congr (h : ∀ s ∈ m.sizes, r s = r' s) :
    m.logLikelihood r = m.logLikelihood r' :=
  sum_congr rfl fun i _ => by rw [likelihood_congr h i]

/-- The mean number of items of one size that an observation is given. -/
noncomputable def share (m : Model ι B S) (r : S → ℝ) (i : ι) (s : S) : ℝ :=
  ∑ b ∈ m.hidden i, m.weight r b / m.evidence r i * m.items b s

theorem share_nonneg (hr : ∀ s ∈ m.sizes, 0 ≤ r s) (i : ι) (s : S) : 0 ≤ m.share r i s :=
  sum_nonneg fun b _ => mul_nonneg
    (div_nonneg (weight_nonneg hr b) (evidence_nonneg hr i)) (Nat.cast_nonneg _)

theorem total_mul_step (m : Model ι B S) (r : S → ℝ) (s : S) :
    m.total * m.step r s = ∑ i ∈ m.obs, m.count i * m.share r i s :=
  mul_div_cancel₀ _ m.total_pos.ne'

theorem step_nonneg (hr : ∀ s ∈ m.sizes, 0 ≤ r s) (s : S) : 0 ≤ m.step r s :=
  div_nonneg (sum_nonneg fun i hi => mul_nonneg (m.count_nonneg i hi) (share_nonneg hr i s))
    m.total_pos.le

/-- An item that a configuration with weight needs keeps a positive rate. -/
theorem step_pos (hr : ∀ s ∈ m.sizes, 0 ≤ r s) {i : ι} (hi : i ∈ m.obs) (hcount : 0 < m.count i)
    {b : B} (hb : b ∈ m.hidden i) (hweight : 0 < m.weight r b) {s : S} (hs : 0 < m.items b s) :
    0 < m.step r s := by
  have hevidence : 0 < m.evidence r i :=
    hweight.trans_le (single_le_sum (fun b _ => weight_nonneg hr b) hb)
  have hitems : (0 : ℝ) < m.items b s := Nat.cast_pos.mpr hs
  have hterm : 0 < m.weight r b / m.evidence r i * m.items b s := by positivity
  have hshare : 0 < m.share r i s := hterm.trans_le (single_le_sum (f := fun b =>
    m.weight r b / m.evidence r i * m.items b s) (fun b _ => mul_nonneg
      (div_nonneg (weight_nonneg hr b) (evidence_nonneg hr i)) (Nat.cast_nonneg _)) hb)
  refine div_pos ?_ m.total_pos
  exact (mul_pos hcount hshare).trans_le (single_le_sum (f := fun i => m.count i * m.share r i s)
    (fun i hi => mul_nonneg (m.count_nonneg i hi) (share_nonneg hr i s)) hi)

/-- A size is given items only if it had a rate. -/
theorem pos_of_step_pos (hr : ∀ s ∈ m.sizes, 0 ≤ r s) {s : S} (hs : s ∈ m.sizes)
    (h : 0 < m.step r s) : 0 < r s := by
  by_contra hzero
  have hshare (i : ι) : m.share r i s = 0 := by
    refine sum_eq_zero fun b _ => ?_
    rcases Nat.eq_zero_or_pos (m.items b s) with hitems | hitems
    · simp [hitems]
    · have hweight : m.weight r b = 0 := by
        refine ((weight_nonneg hr b).eq_or_lt).elim Eq.symm fun hpos => ?_
        exact absurd ((weight_pos_iff hr b).mp hpos s hs hitems) hzero
      simp [hweight]
  have hstep := m.total_mul_step r s
  simp only [hshare, mul_zero, sum_const_zero] at hstep
  exact absurd (mul_pos m.total_pos h) (by rw [← total, hstep]; exact lt_irrefl _)

/-- Sharing out an observation bounds the growth of its evidence from below. -/
theorem share_mul_log_le (hr : ∀ s ∈ m.sizes, 0 ≤ r s) (hr' : ∀ s ∈ m.sizes, 0 ≤ r' s) {i : ι}
    (hevidence : 0 < m.evidence r i)
    (hkeep : ∀ b ∈ m.hidden i, 0 < m.weight r b → 0 < m.weight r' b) :
    ∑ s ∈ m.sizes, m.share r i s * (Real.log (r' s) - Real.log (r s)) ≤
      Real.log (m.evidence r' i) - Real.log (m.evidence r i) := by
  have hgibbs := sum_mul_log_le (m.hidden i) (m.weight r) (m.weight r')
    (fun b _ => weight_nonneg hr b) (fun b _ => weight_nonneg hr' b) hkeep hevidence
  refine le_trans (le_of_eq ?_) hgibbs
  simp only [share, sum_mul]
  rw [sum_comm]
  refine sum_congr rfl fun b hb => ?_
  rcases (weight_nonneg hr b).eq_or_lt with hzero | hpos
  · simp [← hzero]
  · rw [log_weight_sub ((weight_pos_iff hr b).mp hpos) ((weight_pos_iff hr' b).mp (hkeep b hb hpos)),
      mul_sum]
    refine sum_congr rfl fun s _ => ?_
    rw [evidence]
    ring

/-- `x log (x/y)` lies above its tangent. -/
theorem sub_le_mul_log_sub {x y : ℝ} (hx : 0 ≤ x) (hy : 0 ≤ y) (hxy : 0 < x → 0 < y) :
    x - y ≤ x * (Real.log x - Real.log y) := by
  rcases hx.eq_or_lt with rfl | hpos
  · simpa using hy
  · have hypos := hxy hpos
    have hlog := Real.log_le_sub_one_of_pos (div_pos hypos hpos)
    rw [Real.log_div hypos.ne' hpos.ne'] at hlog
    have hmul := mul_le_mul_of_nonneg_left hlog hx
    have hcancel : x * (y / x - 1) = y - x := by field_simp
    rw [hcancel] at hmul
    linarith

/-- One step never lowers the likelihood. -/
theorem logLikelihood_le_step (hr : ∀ s ∈ m.sizes, 0 ≤ r s)
    (hevidence : ∀ i ∈ m.obs, 0 < m.count i → 0 < m.evidence r i) :
    m.logLikelihood r ≤ m.logLikelihood (m.step r) := by
  have hstep : ∀ s ∈ m.sizes, 0 ≤ m.step r s := fun s _ => step_nonneg hr s
  have hkeep : ∀ i ∈ m.obs, 0 < m.count i → ∀ b ∈ m.hidden i, 0 < m.weight r b →
      0 < m.weight (m.step r) b := fun i hi hcount b hb hpos =>
    (weight_pos_iff hstep b).mpr fun s _ hitems => step_pos hr hi hcount hb hpos hitems
  have hevidence' : ∀ i ∈ m.obs, 0 < m.count i → 0 < m.evidence (m.step r) i := by
    intro i hi hcount
    obtain ⟨b,hb,hpos⟩ := exists_weight_pos (hevidence i hi hcount)
    exact (hkeep i hi hcount b hb hpos).trans_le (single_le_sum (fun b _ => weight_nonneg hstep b) hb)
  have hsplit {r : S → ℝ} (h : ∀ i ∈ m.obs, 0 < m.count i → 0 < m.evidence r i) :
      m.logLikelihood r = ∑ i ∈ m.obs, m.count i * Real.log (m.evidence r i) -
        m.total * ∑ s ∈ m.sizes, r s := by
    rw [logLikelihood, total, sum_mul, ← sum_sub_distrib]
    refine sum_congr rfl fun i hi => ?_
    rcases (m.count_nonneg i hi).eq_or_lt with hzero | hcount
    · simp [← hzero]
    · rw [likelihood, Real.log_mul (Real.exp_ne_zero _) (h i hi hcount).ne', Real.log_exp]
      ring
  have hobs : ∀ i ∈ m.obs, m.count i *
      ∑ s ∈ m.sizes, m.share r i s * (Real.log (m.step r s) - Real.log (r s)) ≤
        m.count i * (Real.log (m.evidence (m.step r) i) - Real.log (m.evidence r i)) := by
    intro i hi
    rcases (m.count_nonneg i hi).eq_or_lt with hzero | hcount
    · simp [← hzero]
    · exact mul_le_mul_of_nonneg_left
        (share_mul_log_le hr hstep (hevidence i hi hcount) (hkeep i hi hcount)) hcount.le
  have hregroup : ∑ i ∈ m.obs, m.count i *
      ∑ s ∈ m.sizes, m.share r i s * (Real.log (m.step r s) - Real.log (r s)) =
        ∑ s ∈ m.sizes, m.total * (m.step r s * (Real.log (m.step r s) - Real.log (r s))) := by
    simp only [mul_sum]
    rw [sum_comm]
    refine sum_congr rfl fun s _ => ?_
    rw [← mul_assoc, total_mul_step, sum_mul]
    exact sum_congr rfl fun i _ => by ring
  have htangent : m.total * (∑ s ∈ m.sizes, m.step r s - ∑ s ∈ m.sizes, r s) ≤
      ∑ s ∈ m.sizes, m.total * (m.step r s * (Real.log (m.step r s) - Real.log (r s))) := by
    rw [← sum_sub_distrib, mul_sum]
    refine sum_le_sum fun s hs => mul_le_mul_of_nonneg_left ?_ m.total_pos.le
    exact sub_le_mul_log_sub (hstep s hs) (hr s hs) (pos_of_step_pos hr hs)
  have hsum := sum_le_sum hobs
  rw [hregroup] at hsum
  simp only [mul_sub, sum_sub_distrib] at hsum htangent
  rw [hsplit hevidence, hsplit hevidence']
  linarith

end Model
end PoissonMixture
end SketchMonitor
