import SketchMonitor.EMEpochs
import SketchMonitor.PoissonMixture

/-!
# Every epoch improves the fit

A counter is the sum of the flows that share it, and the combinations of its value
are its hidden configurations, a zero counter having only the empty one. An epoch is
one step of expectation maximisation for this mixture.
-/

namespace SketchMonitor
namespace EMFSD

open Finset BetaGenerator FiniteSums

/-- The probability that a counter has value `i` when flows of each size `s` arrive in
it at rate `lambda s`. -/
noncomputable def prob (size : ℕ) (lambda : ℕ → ℝ) (i : ℕ) : ℝ :=
  if i = 0 then Real.exp (-∑ s ∈ range size, lambda s) else
    ((combinations i).map fun beta => Real.exp (-∑ s ∈ range size, lambda s) *
      ∏ s ∈ beta.toFinset, lambda s ^ beta.count s / (beta.count s).factorial).sum

/-- How well the rates of an estimate explain the counters. -/
noncomputable def logLikelihood (e : EMFSD ℝ) : ℝ :=
  ∑ i ∈ range e.counterDist.length,
    e.counted i * Real.log (prob e.counterDist.length e.rate i)

/-- The counters as observations of a Poisson mixture. -/
noncomputable def mixture (counters : List ℕ) (hne : counters ≠ []) :
    PoissonMixture.Model ℕ (List ℕ) ℕ where
  obs := range (collectCounters counters).length
  count i := counters.count i
  hidden i := if i = 0 then {[]} else hidden i
  sizes := Ico 1 (collectCounters counters).length
  items beta s := beta.count s
  count_nonneg _ _ := Nat.cast_nonneg _
  total_pos := by
    have htotal := sum_count_nsmul counters _ (fun _ => lt_length_collectCounters) fun _ => (1 : ℝ)
    simp only [nsmul_one, List.map_const', List.sum_replicate] at htotal
    rw [htotal]
    exact Nat.cast_pos.mpr (List.length_pos_iff.mpr hne)

variable {counters : List ℕ} {hne : counters ≠ []}

theorem mixture_total : (mixture counters hne).total = counters.length := by
  have htotal := sum_count_nsmul counters _ (fun _ => lt_length_collectCounters) fun _ => (1 : ℝ)
  simpa [PoissonMixture.Model.total, mixture] using htotal

theorem mixture_weight {i : ℕ} (hi : i ∈ Ico 1 (collectCounters counters).length) {beta : List ℕ}
    (hbeta : beta ∈ hidden i) (r : ℕ → ℝ) : (mixture counters hne).weight r beta =
      ∏ s ∈ beta.toFinset, r s ^ beta.count s / (beta.count s).factorial := by
  rw [mem_Ico] at hi
  have hcomb := mem_hidden hi.1 hbeta
  refine (prod_subset (fun s hs => ?_) fun s _ hs => ?_).symm
  · have hmem := List.mem_toFinset.mp hs
    exact mem_Ico.mpr ⟨hcomb.pos s hmem,(hcomb.le_sum hmem).trans_lt hi.2⟩
  · have hcount : (mixture counters hne).items beta s = 0 :=
      List.count_eq_zero.mpr fun h => hs (List.mem_toFinset.mpr h)
    rw [hcount, pow_zero, Nat.factorial_zero, Nat.cast_one, div_one]

theorem mixture_hidden {i : ℕ} (hi : 1 ≤ i) : (mixture counters hne).hidden i = hidden i :=
  if_neg (Nat.one_le_iff_ne_zero.mp hi)

theorem mixture_evidence_zero (r : ℕ → ℝ) : (mixture counters hne).evidence r 0 = 1 := by
  simp [PoissonMixture.Model.evidence, PoissonMixture.Model.weight, mixture]

/-- Rates over the mixture's sizes: `prob` is the likelihood of one observation. -/
theorem prob_eq_likelihood {r : ℕ → ℝ} (hr : r 0 = 0) {i : ℕ}
    (hi : i ∈ range (collectCounters counters).length) :
    prob (collectCounters counters).length r i = (mixture counters hne).likelihood r i := by
  have hsum : ∑ s ∈ range (collectCounters counters).length, r s =
      ∑ s ∈ (mixture counters hne).sizes, r s := by
    rw [range_eq_Ico, sum_eq_sum_Ico_succ_bot (length_collectCounters_pos counters), hr, zero_add]
    rfl
  rw [prob, PoissonMixture.Model.likelihood, hsum]
  split_ifs with hzero
  · rw [hzero, mixture_evidence_zero, mul_one]
  · have hone : 1 ≤ i := Nat.one_le_iff_ne_zero.mpr hzero
    rw [List.sum_map_mul_left, ← sum_hidden hone, PoissonMixture.Model.evidence,
      mixture_hidden hone]
    congr 1
    exact sum_congr rfl fun beta hbeta =>
      (mixture_weight (mem_Ico.mpr ⟨hone,mem_range.mp hi⟩) hbeta r).symm

section Epoch

variable {e : EMFSD ℝ}

/-- The code's posterior weights are those of the mixture: what all combinations have
in common cancels. -/
theorem share_eq {i : ℕ} (hi : i ∈ Ico 1 (collectCounters counters).length) {beta : List ℕ}
    (hbeta : beta ∈ hidden i) : e.p Real.exp beta / e.sumP Real.exp i =
      (mixture counters hne).weight e.rate beta / (mixture counters hne).evidence e.rate i := by
  have hone := (mem_Ico.mp hi).1
  have hp {beta : List ℕ} (hbeta : beta ∈ hidden i) : e.p Real.exp beta =
      Real.exp (-(e.nNew / e.w)) * (mixture counters hne).weight e.rate beta := by
    rw [p_eq, mixture_weight hi hbeta]
  rw [sumP_eq e hone, sum_congr rfl fun beta hbeta => hp hbeta, ← mul_sum, hp hbeta,
    PoissonMixture.Model.evidence, mixture_hidden hone]
  exact mul_div_mul_left _ _ (Real.exp_ne_zero _)

variable (he : Fits counters e) (h : ∃ c ∈ counters, c ≠ 0)
include he

theorem rate_zero : e.rate 0 = 0 := by
  rw [rate, he.distNew_outside 0 (by simp), mul_zero, zero_div]

theorem sum_rate : ∑ s ∈ range e.counterDist.length, e.rate s = e.nNew / e.w := by
  rw [range_eq_Ico, sum_eq_sum_Ico_succ_bot
    (he.counterDist_eq ▸ length_collectCounters_pos counters), rate_zero he, zero_add]
  simp only [rate]
  rw [← sum_div, ← mul_sum, he.sum_distNew, mul_one]

/-- The first pass computes the probability of a counter value. -/
theorem sumP_eq_prob {i : ℕ} (hi : 1 ≤ i) :
    e.sumP Real.exp i = prob e.counterDist.length e.rate i := by
  rw [prob, if_neg (Nat.one_le_iff_ne_zero.mp hi), sum_rate he, sumP_eq e hi, sum_hidden hi]
  exact congrArg List.sum (List.map_congr_left fun beta _ => p_eq e beta)

theorem nextEpoch_ns_eq_share (s : ℕ) : (e.nextEpoch Real.exp).ns s =
    ∑ i ∈ (mixture counters hne).obs,
      (mixture counters hne).count i * (mixture counters hne).share e.rate i s := by
  have hempty : (mixture counters hne).share e.rate 0 s = 0 := by
    simp [PoissonMixture.Model.share, mixture]
  rw [nextEpoch_ns, he.counterDist_eq]
  change _ = ∑ i ∈ range (collectCounters counters).length, _
  rw [range_eq_Ico, sum_eq_sum_Ico_succ_bot (length_collectCounters_pos counters), hempty,
    mul_zero, zero_add]
  refine sum_congr rfl fun i hi => ?_
  rw [he.counted_eq, PoissonMixture.Model.share, mixture_hidden (mem_Ico.mp hi).1]
  congr 1
  exact sum_congr rfl fun beta hbeta => by rw [share_eq hi hbeta]; rfl

include h

/-- Renormalising and multiplying by the number of flows cancels, so that the new rates
are those of the mixture's step. -/
theorem rate_nextEpoch {s : ℕ} (hs : s ∈ (mixture counters hne).sizes) :
    (e.nextEpoch Real.exp).rate s = (mixture counters hne).step e.rate s := by
  have hn : (e.nextEpoch Real.exp).nNew ≠ 0 := (he.nextEpoch_nNew_pos Real.exp_pos h).ne'
  have hdist : (e.nextEpoch Real.exp).distNew s =
      (e.nextEpoch Real.exp).ns s / (e.nextEpoch Real.exp).nNew :=
    (nextEpoch_distNew e s).trans (if_pos (he.counterDist_eq ▸ hs))
  have hshare : ∑ i ∈ (mixture counters hne).obs, (mixture counters hne).count i *
      (mixture counters hne).share e.rate i s = (e.nextEpoch Real.exp).ns s :=
    (nextEpoch_ns_eq_share he s).symm
  rw [rate, hdist, mul_div_cancel₀ _ hn, ← hshare, PoissonMixture.Model.step, mixture_total,
    ← he.w_eq]
  rfl

theorem mixture_evidence_pos {i : ℕ} (hi : 0 < (mixture counters hne).count i) :
    0 < (mixture counters hne).evidence e.rate i := by
  have hmem : i ∈ counters := List.count_pos_iff.mp (Nat.cast_pos.mp hi)
  rcases Nat.eq_zero_or_pos i with rfl | hpos
  · rw [mixture_evidence_zero]
    exact one_pos
  · rw [PoissonMixture.Model.evidence, mixture_hidden hpos]
    have hsingle : 0 < (mixture counters hne).weight e.rate [i] := by
      rw [mixture_weight (mem_Ico_of_mem hmem hpos.ne') (singleton_mem_hidden hpos.ne')]
      simpa using he.rate_pos h hmem hpos.ne'
    exact hsingle.trans_le (single_le_sum (fun beta _ =>
      PoissonMixture.Model.weight_nonneg (fun s _ => he.rate_nonneg h s) beta)
        (singleton_mem_hidden hpos.ne'))

omit h in
theorem logLikelihood_eq : e.logLikelihood = (mixture counters hne).logLikelihood e.rate := by
  rw [logLikelihood, he.counterDist_eq]
  refine sum_congr rfl fun i hi => ?_
  rw [he.counted_eq]
  exact congrArg (fun x => (counters.count i : ℝ) * Real.log x)
    (prob_eq_likelihood (rate_zero he) hi)

end Epoch

/-- Whatever the number of epochs behind it, one more does not lower the likelihood. -/
theorem logLikelihood_le_nextEpoch (counters : List ℕ) (h : ∃ c ∈ counters, c ≠ 0) (n : ℕ) :
    (epochs Real.exp counters n).logLikelihood ≤
      ((epochs Real.exp counters n).nextEpoch Real.exp).logLikelihood := by
  have he : Fits counters (epochs Real.exp counters n) := fits_epochs Real.exp_pos h n
  have hne : counters ≠ [] := by
    obtain ⟨c,hc,-⟩ := h
    exact List.ne_nil_of_mem hc
  have hstep := PoissonMixture.Model.logLikelihood_le_step (m := mixture counters hne)
    (fun s _ => he.rate_nonneg h s) fun i _ hi => mixture_evidence_pos he h hi
  rw [logLikelihood_eq he, logLikelihood_eq (he.nextEpoch Real.exp_pos h),
    PoissonMixture.Model.logLikelihood_congr fun s hs => rate_nextEpoch he h hs]
  exact hstep

theorem logLikelihood_le_nextEpoch_two_counters :
    (epochs Real.exp [2,0] 1).logLikelihood ≤
      ((epochs Real.exp [2,0] 1).nextEpoch Real.exp).logLikelihood :=
  logLikelihood_le_nextEpoch [2,0] ⟨2,by simp,by decide⟩ 1

end EMFSD
end SketchMonitor
