import Mathlib.Algebra.Order.Field.Basic
import SketchMonitor.EMFSD

/-!
# What every epoch keeps

Each combination of a counter value sums to that value, and the shares of a value add
up to one. So an epoch moves the packets of the counters to flow sizes without loss,
and a value that occurs keeps a positive probability, which keeps every divisor
positive.
-/

namespace SketchMonitor
namespace EMFSD

open Finset BetaGenerator FiniteSums

section Counting

theorem length_foldl_modify (counters dist : List ℕ) :
    (counters.foldl (fun dist c => dist.modify c (· + 1)) dist).length = dist.length := by
  induction counters generalizing dist with
  | nil => rfl
  | cons c cs ih => rw [List.foldl_cons, ih, List.length_modify]

theorem getD_foldl_modify (counters dist : List ℕ) (h : ∀ c ∈ counters, c < dist.length) (i : ℕ) :
    (counters.foldl (fun dist c => dist.modify c (· + 1)) dist).getD i 0 =
      dist.getD i 0 + counters.count i := by
  induction counters generalizing dist with
  | nil => simp
  | cons c cs ih =>
    have hc : c < dist.length := h c (by simp)
    rw [List.foldl_cons, ih _ fun d hd => by rw [List.length_modify]; exact h d (by simp [hd])]
    by_cases hi : c = i
    · subst hi
      rw [List.count_cons_self, List.getD_eq_getElem _ _ (by rwa [List.length_modify]),
        List.getElem_modify, if_pos rfl, List.getD_eq_getElem _ _ hc]
      omega
    · rw [List.count_cons_of_ne hi]
      congr 1
      simp [List.getD_eq_getElem?_getD, hi]

theorem le_foldl_max (counters : List ℕ) (a : ℕ) :
    a ≤ counters.foldl max a ∧ ∀ c ∈ counters, c ≤ counters.foldl max a := by
  induction counters generalizing a with
  | nil => simp
  | cons c cs ih =>
    obtain ⟨hstart,hmem⟩ := ih (max a c)
    refine ⟨(le_max_left a c).trans hstart,fun d hd => ?_⟩
    rcases List.mem_cons.mp hd with rfl | hd
    · exact (le_max_right a d).trans hstart
    · exact hmem d hd

theorem lt_length_collectCounters {counters : List ℕ} {c : ℕ} (hc : c ∈ counters) :
    c < (collectCounters counters).length := by
  rw [collectCounters, length_foldl_modify, List.length_replicate]
  exact Nat.lt_succ_of_le ((le_foldl_max counters 0).2 c hc)

theorem length_collectCounters_pos (counters : List ℕ) : 0 < (collectCounters counters).length := by
  rw [collectCounters, length_foldl_modify, List.length_replicate]
  exact Nat.succ_pos _

@[simp] theorem collectCounters_getD (counters : List ℕ) (i : ℕ) :
    (collectCounters counters).getD i 0 = counters.count i := by
  rw [collectCounters, getD_foldl_modify _ _ fun c hc => ?_]
  · rcases lt_or_ge i (counters.foldl max 0 + 1) with hi | hi
    · simp [List.getD_eq_getElem?_getD, hi]
    · simp [List.getD_eq_getElem?_getD, Nat.not_lt.mpr hi]
  · rw [List.length_replicate]
    exact Nat.lt_succ_of_le ((le_foldl_max counters 0).2 c hc)

end Counting

variable {K : Type*} [Field K] {exp : K → K}

/-- The expected number of flows of one size in a counter. -/
def rate (e : EMFSD K) (s : ℕ) : K := e.nNew * e.distNew s / e.w

/-- The combinations of one counter value. -/
def hidden (i : ℕ) : Finset (List ℕ) := (combinations i).toFinset

theorem mem_hidden {i : ℕ} (hi : 1 ≤ i) {beta : List ℕ} (h : beta ∈ hidden i) :
    IsCombination i beta := ((mem_combinations hi beta).mp (List.mem_toFinset.mp h)).1

theorem sum_hidden {M : Type*} [AddCommMonoid M] {i : ℕ} (hi : 1 ≤ i) (φ : List ℕ → M) :
    ∑ beta ∈ hidden i, φ beta = ((combinations i).map φ).sum :=
  List.sum_toFinset φ (nodup_combinations hi)

omit [Field K] in
theorem sum_sizes {M : Type*} [AddCommMonoid M] (e : EMFSD K) (φ : ℕ → M) :
    (e.sizes.map φ).sum = ∑ i ∈ Ico 1 e.counterDist.length, φ i := by
  rw [sizes, ← List.sum_toFinset φ List.nodup_range']
  refine sum_congr ?_ fun _ _ => rfl
  ext i
  simp only [List.mem_toFinset, List.mem_range'_1, mem_Ico]
  omega

omit [Field K] in
theorem mem_sizes (e : EMFSD K) (i : ℕ) : i ∈ e.sizes ↔ 1 ≤ i ∧ i < e.counterDist.length := by
  rw [sizes, List.mem_range'_1]
  omega

theorem foldl_mul_eq (xs : List ℕ) (φ : ℕ → K) (a : K) :
    xs.foldl (fun ret x => ret * φ x) a = a * (xs.map φ).prod := by
  induction xs generalizing a with
  | nil => simp
  | cons x xs ih => rw [List.foldl_cons, ih, List.map_cons, List.prod_cons, mul_assoc]

/-- The weight of a combination, up to the factor that all have in common. -/
theorem p_eq (e : EMFSD K) (beta : List ℕ) :
    e.p exp beta = exp (-(e.nNew / e.w)) *
      ∏ s ∈ beta.toFinset, e.rate s ^ beta.count s / (beta.count s).factorial := by
  have hdedup : beta.dedup.toFinset = beta.toFinset := by
    ext s
    simp
  rw [p, getPFromBeta, foldl_mul_eq, ← List.prod_toFinset _ beta.nodup_dedup, hdedup]
  simp only [factorial_eq, rate]

theorem sumP_eq (e : EMFSD K) {i : ℕ} (hi : 1 ≤ i) :
    e.sumP exp i = ∑ beta ∈ hidden i, e.p exp beta := by
  rw [sumP, sum_hidden hi, List.sum_eq_foldl, List.foldl_map]

theorem addShares_apply (e : EMFSD K) (ns : ℕ → K) {i : ℕ} (hi : 1 ≤ i) (v : ℕ) :
    e.addShares exp ns i v = ns v +
      e.counted i * ∑ beta ∈ hidden i, e.p exp beta / e.sumP exp i * beta.count v := by
  rw [addShares, foldl_add_apply (fun ns beta => beta.foldl (fun ns x => Function.update ns x
    (ns x + e.counted i * e.p exp beta / e.sumP exp i)) ns) (fun beta v =>
      beta.count v • (e.counted i * e.p exp beta / e.sumP exp i)) fun ns beta v =>
        foldl_update_add beta ns _ v, sum_hidden hi, ← List.sum_map_mul_left]
  congr 3
  funext beta
  rw [nsmul_eq_mul]
  ring

theorem nextEpoch_ns (e : EMFSD K) (v : ℕ) :
    (e.nextEpoch exp).ns v = ∑ i ∈ Ico 1 e.counterDist.length,
      e.counted i * ∑ beta ∈ hidden i, e.p exp beta / e.sumP exp i * beta.count v := by
  have hround (ns : ℕ → K) (i : {i // i ∈ e.sizes}) (v : ℕ) :
      (if e.counted i = 0 then ns else e.addShares exp ns i) v = ns v + e.counted i *
        ∑ beta ∈ hidden i, e.p exp beta / e.sumP exp i * beta.count v := by
    split_ifs with hzero
    · simp [hzero]
    · exact e.addShares_apply ns ((e.mem_sizes i).mp i.2).1 v
  have hns : (e.nextEpoch exp).ns = e.sizes.foldl (fun ns i =>
    if e.counted i = 0 then ns else e.addShares exp ns i) fun _ => 0 := rfl
  rw [← sum_sizes, hns, ← List.attach_map_subtype_val e.sizes, List.foldl_map,
    foldl_add_apply _ _ hround, zero_add, List.map_map]
  rfl

theorem nextEpoch_nNew (e : EMFSD K) :
    (e.nextEpoch exp).nNew = ∑ v ∈ Ico 1 e.counterDist.length, (e.nextEpoch exp).ns v := by
  rw [← sum_sizes, List.sum_eq_foldl, List.foldl_map]
  rfl

theorem nextEpoch_distNew (e : EMFSD K) (v : ℕ) :
    (e.nextEpoch exp).distNew v = if v ∈ Ico 1 e.counterDist.length then
      (e.nextEpoch exp).ns v / (e.nextEpoch exp).nNew else e.distNew v := by
  simp only [mem_Ico, ← mem_sizes]
  rfl

/-- Adding over the sizes, each combination contributes what its entries add up to. -/
theorem sum_mul_nextEpoch_ns (e : EMFSD K) (φ : ℕ → K) :
    ∑ v ∈ Ico 1 e.counterDist.length, φ v * (e.nextEpoch exp).ns v =
      ∑ i ∈ Ico 1 e.counterDist.length, e.counted i *
        ∑ beta ∈ hidden i, e.p exp beta / e.sumP exp i * (beta.map φ).sum := by
  have hentries {i : ℕ} (hi : i ∈ Ico 1 e.counterDist.length) {beta : List ℕ}
      (hbeta : beta ∈ hidden i) :
      ∑ v ∈ Ico 1 e.counterDist.length, φ v * beta.count v = (beta.map φ).sum := by
    rw [mem_Ico] at hi
    have hcomb := mem_hidden hi.1 hbeta
    have hzero : beta.count 0 = 0 := List.count_eq_zero.mpr fun h => absurd (hcomb.pos 0 h) (by simp)
    rw [← sum_count_nsmul_pos beta (fun x hx => (hcomb.le_sum hx).trans_lt hi.2) φ (by simp [hzero])]
    exact sum_congr rfl fun v _ => by rw [nsmul_eq_mul, mul_comm]
  simp only [nextEpoch_ns, mul_sum]
  rw [sum_comm]
  refine sum_congr rfl fun i hi => ?_
  rw [sum_comm]
  refine sum_congr rfl fun beta hbeta => ?_
  rw [← hentries hi hbeta, mul_sum, mul_sum]
  exact sum_congr rfl fun v _ => by ring

/-- The sizes a counter value can be split into are among `sizes`. -/
theorem nextEpoch_ns_outside (e : EMFSD K) {v : ℕ} (hv : v ∉ Ico 1 e.counterDist.length) :
    (e.nextEpoch exp).ns v = 0 := by
  rw [nextEpoch_ns]
  refine sum_eq_zero fun i hi => ?_
  rw [sum_eq_zero fun beta hbeta => ?_, mul_zero]
  rw [mem_Ico] at hi hv
  have hcomb := mem_hidden hi.1 hbeta
  rw [List.count_eq_zero.mpr fun hmem => hv
    ⟨hcomb.pos v hmem,(hcomb.le_sum hmem).trans_lt hi.2⟩, Nat.cast_zero, mul_zero]

/-- The counters that are not zero. -/
def occupied (counters : List ℕ) : ℕ := counters.countP (· ≠ 0)

/-- Summing over the values that occur is summing over the counters. -/
theorem sum_counted (counters : List ℕ) (φ : ℕ → K) (hφ : φ 0 = 0) :
    ∑ i ∈ Ico 1 (collectCounters counters).length, (counters.count i : K) * φ i =
      (counters.map φ).sum := by
  rw [← sum_count_nsmul_pos counters (fun _ => lt_length_collectCounters) φ (by simp [hφ])]
  exact sum_congr rfl fun i _ => (nsmul_eq_mul _ _).symm

theorem sum_counted_one (counters : List ℕ) :
    ∑ i ∈ Ico 1 (collectCounters counters).length, (counters.count i : K) = occupied counters := by
  have hone (cs : List ℕ) : (cs.map fun i => if i ≠ 0 then (1 : K) else 0).sum = occupied cs := by
    induction cs with
    | nil => simp [occupied]
    | cons c cs ih => by_cases hc : c = 0 <;> simp_all [occupied, add_comm]
  rw [← hone, ← sum_counted counters _ (by simp)]
  refine sum_congr rfl fun i hi => ?_
  rw [if_pos (by rw [mem_Ico] at hi; omega), mul_one]

theorem sum_counted_id (counters : List ℕ) :
    ∑ i ∈ Ico 1 (collectCounters counters).length, (counters.count i : K) * i = counters.sum := by
  rw [sum_counted counters (fun i => (i : K)) Nat.cast_zero, ← Nat.cast_list_sum]

theorem length_sub_count_zero (counters : List ℕ) :
    (counters.length : K) - counters.count 0 = occupied counters := by
  rw [sub_eq_iff_eq_add, ← Nat.cast_add, occupied,
    List.length_eq_countP_add_countP (fun c => decide (c ≠ 0))]
  congr 2
  simp [List.count, beq_eq_decide]

variable {counters : List ℕ}

theorem mem_Ico_of_mem {i : ℕ} (hi : i ∈ counters) (hne : i ≠ 0) :
    i ∈ Ico 1 (collectCounters counters).length :=
  mem_Ico.mpr ⟨Nat.one_le_iff_ne_zero.mpr hne,lt_length_collectCounters hi⟩

theorem setCounters_nNew (counters : List ℕ) :
    (setCounters counters : EMFSD K).nNew = occupied counters := by
  simp only [setCounters, collectCounters_getD, length_sub_count_zero]

theorem setCounters_inside {i : ℕ} (hi : i ∈ Ico 1 (collectCounters counters).length) :
    (setCounters counters : EMFSD K).distNew i = counters.count i / occupied counters ∧
      (setCounters counters : EMFSD K).ns i = counters.count i := by
  rw [mem_Ico] at hi
  simp only [setCounters, collectCounters_getD, length_sub_count_zero, hi, decide_true, if_true,
    and_self]

theorem setCounters_outside {i : ℕ} (hi : i ∉ Ico 1 (collectCounters counters).length) :
    (setCounters counters : EMFSD K).distNew i = 0 ∧ (setCounters counters : EMFSD K).ns i = 0 := by
  rw [mem_Ico] at hi
  simp [setCounters, hi]

theorem occupied_pos {counters : List ℕ} (h : ∃ c ∈ counters, c ≠ 0) : 0 < occupied counters := by
  obtain ⟨c,hc,hne⟩ := h
  exact List.countP_pos_iff.mpr ⟨c,hc,by simpa using hne⟩

theorem occupied_le_sum (counters : List ℕ) : occupied counters ≤ counters.sum := by
  induction counters with
  | nil => simp [occupied]
  | cons c cs ih =>
    by_cases hc : c = 0
    · simpa [occupied, hc] using ih
    · simp only [occupied, ne_eq, hc, not_false_eq_true, decide_true, List.countP_cons_of_pos,
        List.sum_cons] at ih ⊢
      omega

theorem singleton_mem_hidden {i : ℕ} (hne : i ≠ 0) : [i] ∈ hidden i :=
  List.mem_toFinset.mpr (singleton_mem_combinations (Nat.one_le_iff_ne_zero.mpr hne))

section Ordered

variable [LinearOrder K] [IsStrictOrderedRing K]

/-- What every epoch keeps. A value that occurs stays a possible flow size, and the
flows are at least as many as the nonzero counters and at most as many as the packets. -/
structure Fits (counters : List ℕ) (e : EMFSD K) : Prop where
  w_eq : e.w = counters.length
  counterDist_eq : e.counterDist = collectCounters counters
  distNew_nonneg : ∀ s, 0 ≤ e.distNew s
  distNew_pos : ∀ i ∈ counters, i ≠ 0 → 0 < e.distNew i
  distNew_outside : ∀ v ∉ Ico 1 e.counterDist.length, e.distNew v = 0
  sum_distNew : ∑ s ∈ Ico 1 e.counterDist.length, e.distNew s = 1
  occupied_le : (occupied counters : K) ≤ e.nNew
  le_packets : e.nNew ≤ counters.sum
  ns_outside : ∀ v ∉ Ico 1 e.counterDist.length, e.ns v = 0
  packets : ∑ v ∈ Ico 1 e.counterDist.length, v * e.ns v = counters.sum

theorem Fits.setCounters (h : ∃ c ∈ counters, c ≠ 0) :
    Fits counters (setCounters counters : EMFSD K) where
  w_eq := rfl
  counterDist_eq := rfl
  distNew_nonneg s := by
    by_cases hs : s ∈ Ico 1 (collectCounters counters).length
    · rw [(setCounters_inside hs).1]
      positivity
    · rw [(setCounters_outside hs).1]
  distNew_pos i hi hne := by
    rw [(setCounters_inside (mem_Ico_of_mem hi hne)).1]
    exact div_pos (Nat.cast_pos.mpr (List.count_pos_iff.mpr hi)) (Nat.cast_pos.mpr (occupied_pos h))
  distNew_outside v hv := (setCounters_outside hv).1
  sum_distNew := by
    have hpos : (0 : K) < occupied counters := Nat.cast_pos.mpr (occupied_pos h)
    have hsum : ∑ i ∈ Ico 1 (collectCounters counters).length,
        (EMFSD.setCounters counters : EMFSD K).distNew i = _ :=
      sum_congr rfl fun i hi => (setCounters_inside hi).1
    rwa [← sum_div, sum_counted_one, div_self hpos.ne'] at hsum
  occupied_le := (setCounters_nNew counters).ge
  le_packets := by
    rw [setCounters_nNew]
    exact Nat.cast_le.mpr (occupied_le_sum counters)
  ns_outside v hv := (setCounters_outside hv).2
  packets := by
    rw [← sum_counted_id]
    exact sum_congr rfl fun i hi => by rw [(setCounters_inside hi).2, mul_comm]

namespace Fits

omit [IsStrictOrderedRing K] in
theorem counted_eq {e : EMFSD K} (he : Fits counters e) (i : ℕ) :
    e.counted i = counters.count i := by
  rw [counted, he.counterDist_eq, collectCounters_getD]

variable {e : EMFSD K} (he : Fits counters e) (hexp : ∀ x : K, 0 < exp x)
  (h : ∃ c ∈ counters, c ≠ 0)

include he h

theorem nNew_pos : 0 < e.nNew :=
  (Nat.cast_pos.mpr (occupied_pos h)).trans_le he.occupied_le

theorem w_pos : (0 : K) < e.w := by
  obtain ⟨c,hc,-⟩ := h
  rw [he.w_eq]
  exact Nat.cast_pos.mpr (List.length_pos_of_mem hc)

theorem rate_nonneg (s : ℕ) : 0 ≤ e.rate s :=
  div_nonneg (mul_nonneg (he.nNew_pos h).le (he.distNew_nonneg s)) (he.w_pos h).le

theorem rate_pos {i : ℕ} (hi : i ∈ counters) (hne : i ≠ 0) : 0 < e.rate i :=
  div_pos (mul_pos (he.nNew_pos h) (he.distNew_pos i hi hne)) (he.w_pos h)

include hexp

theorem p_nonneg (beta : List ℕ) : 0 ≤ e.p exp beta := by
  rw [p_eq]
  exact mul_nonneg (hexp _).le (prod_nonneg fun s _ =>
    div_nonneg (pow_nonneg (he.rate_nonneg h s) _) (Nat.cast_nonneg _))

theorem p_singleton_pos {i : ℕ} (hi : i ∈ counters) (hne : i ≠ 0) : 0 < e.p exp [i] := by
  rw [p_eq]
  simpa using mul_pos (hexp _) (he.rate_pos h hi hne)

theorem sumP_pos {i : ℕ} (hi : i ∈ counters) (hne : i ≠ 0) : 0 < e.sumP exp i := by
  rw [sumP_eq e (Nat.one_le_iff_ne_zero.mpr hne)]
  exact (he.p_singleton_pos hexp h hi hne).trans_le
    (single_le_sum (fun beta _ => he.p_nonneg hexp h beta) (singleton_mem_hidden hne))

/-- The shares of the combinations of a value that occurs add up to one. -/
theorem sum_shares {i : ℕ} (hi : i ∈ counters) (hne : i ≠ 0) :
    ∑ beta ∈ hidden i, e.p exp beta / e.sumP exp i = 1 := by
  rw [← sum_div, ← sumP_eq e (Nat.one_le_iff_ne_zero.mpr hne)]
  exact div_self (he.sumP_pos hexp h hi hne).ne'

theorem share_nonneg {i : ℕ} (hi : 1 ≤ i) (beta : List ℕ) : 0 ≤ e.p exp beta / e.sumP exp i := by
  rw [sumP_eq e hi]
  exact div_nonneg (he.p_nonneg hexp h beta) (sum_nonneg fun beta _ => he.p_nonneg hexp h beta)

theorem nextEpoch_ns_nonneg (v : ℕ) : 0 ≤ (e.nextEpoch exp).ns v := by
  rw [nextEpoch_ns]
  refine sum_nonneg fun i hi => mul_nonneg (Nat.cast_nonneg _) (sum_nonneg fun beta _ => ?_)
  exact mul_nonneg (he.share_nonneg hexp h (mem_Ico.mp hi).1 beta) (Nat.cast_nonneg _)

/-- A value that occurs is itself one of its combinations. -/
theorem nextEpoch_ns_pos {i : ℕ} (hi : i ∈ counters) (hne : i ≠ 0) :
    0 < (e.nextEpoch exp).ns i := by
  have hpos : 1 ≤ i := Nat.one_le_iff_ne_zero.mpr hne
  have hshare : 0 < e.p exp [i] / e.sumP exp i * ([i].count i : ℕ) := by
    simpa using div_pos (he.p_singleton_pos hexp h hi hne) (he.sumP_pos hexp h hi hne)
  have hcounted : (0 : K) < e.counted i := by
    rw [he.counted_eq]
    exact Nat.cast_pos.mpr (List.count_pos_iff.mpr hi)
  have hterm (j : ℕ) (hj : j ∈ Ico 1 e.counterDist.length) :
      0 ≤ e.counted j * ∑ beta ∈ hidden j, e.p exp beta / e.sumP exp j * beta.count i :=
    mul_nonneg (Nat.cast_nonneg _) (sum_nonneg fun beta _ => mul_nonneg
      (he.share_nonneg hexp h (mem_Ico.mp hj).1 beta) (Nat.cast_nonneg _))
  rw [nextEpoch_ns]
  refine (mul_pos hcounted (hshare.trans_le ?_)).trans_le
    (single_le_sum hterm (he.counterDist_eq ▸ mem_Ico_of_mem hi hne))
  exact single_le_sum (f := fun beta => e.p exp beta / e.sumP exp i * (beta.count i : K))
    (fun beta _ => mul_nonneg (he.share_nonneg hexp h hpos beta) (Nat.cast_nonneg _))
    (singleton_mem_hidden hne)

theorem nextEpoch_packets :
    ∑ v ∈ Ico 1 e.counterDist.length, v * (e.nextEpoch exp).ns v = counters.sum := by
  rw [sum_mul_nextEpoch_ns, ← sum_counted_id, he.counterDist_eq]
  refine sum_congr rfl fun i hi => ?_
  rw [he.counted_eq]
  by_cases hmem : i ∈ counters
  · have hone : 1 ≤ i := (mem_Ico.mp hi).1
    rw [sum_congr rfl fun beta hbeta => by
      rw [← Nat.cast_list_sum, (mem_hidden hone hbeta).sum_eq], ← sum_mul,
      he.sum_shares hexp h hmem (by omega), one_mul]
  · simp [List.count_eq_zero.mpr hmem]

theorem nextEpoch_le_packets : (e.nextEpoch exp).nNew ≤ counters.sum := by
  rw [nextEpoch_nNew, ← he.nextEpoch_packets hexp h]
  refine sum_le_sum fun v hv => le_mul_of_one_le_left (he.nextEpoch_ns_nonneg hexp h v) ?_
  exact Nat.one_le_cast.mpr (mem_Ico.mp hv).1

/-- Every combination has an entry. -/
theorem nextEpoch_occupied_le : (occupied counters : K) ≤ (e.nextEpoch exp).nNew := by
  have hflows : (e.nextEpoch exp).nNew = _ :=
    (nextEpoch_nNew e).trans ((sum_congr rfl fun v _ => (one_mul _).symm).trans
      (sum_mul_nextEpoch_ns e fun _ => 1))
  rw [hflows, ← sum_counted_one, he.counterDist_eq]
  refine sum_le_sum fun i hi => ?_
  rw [he.counted_eq]
  by_cases hmem : i ∈ counters
  · have hone : 1 ≤ i := (mem_Ico.mp hi).1
    refine le_mul_of_one_le_right (Nat.cast_nonneg _) ?_
    refine (he.sum_shares hexp h hmem (by omega)).ge.trans (sum_le_sum fun beta hbeta =>
      le_mul_of_one_le_right (he.share_nonneg hexp h hone beta) ?_)
    have hlen : 1 ≤ beta.length := (mem_hidden hone hbeta).length_pos hone
    rw [List.map_const', List.sum_replicate, nsmul_one]
    exact Nat.one_le_cast.mpr hlen
  · simp [List.count_eq_zero.mpr hmem]

theorem nextEpoch_nNew_pos : 0 < (e.nextEpoch exp).nNew :=
  (Nat.cast_pos.mpr (occupied_pos h)).trans_le (he.nextEpoch_occupied_le hexp h)

theorem nextEpoch : Fits counters (e.nextEpoch exp) where
  w_eq := he.w_eq
  counterDist_eq := he.counterDist_eq
  distNew_nonneg s := by
    rw [nextEpoch_distNew]
    split_ifs
    · exact div_nonneg (he.nextEpoch_ns_nonneg hexp h s) (he.nextEpoch_nNew_pos hexp h).le
    · exact he.distNew_nonneg s
  distNew_pos i hi hne := by
    rw [nextEpoch_distNew, if_pos (he.counterDist_eq ▸ mem_Ico_of_mem hi hne)]
    exact div_pos (he.nextEpoch_ns_pos hexp h hi hne) (he.nextEpoch_nNew_pos hexp h)
  distNew_outside v hv := by
    exact (nextEpoch_distNew e v).trans ((if_neg hv).trans (he.distNew_outside v hv))
  sum_distNew := by
    have hsum : ∑ v ∈ Ico 1 e.counterDist.length, (e.nextEpoch exp).distNew v = _ :=
      sum_congr rfl fun v hv => (nextEpoch_distNew e v).trans (if_pos hv)
    rwa [← sum_div, ← nextEpoch_nNew, div_self (he.nextEpoch_nNew_pos hexp h).ne'] at hsum
  occupied_le := he.nextEpoch_occupied_le hexp h
  le_packets := he.nextEpoch_le_packets hexp h
  ns_outside v hv := nextEpoch_ns_outside e hv
  packets := he.nextEpoch_packets hexp h

end Fits

theorem fits_epochs (hexp : ∀ x : K, 0 < exp x) (h : ∃ c ∈ counters, c ≠ 0) (n : ℕ) :
    Fits counters (epochs exp counters n) := by
  induction n with
  | zero => exact Fits.setCounters h
  | succ n ih =>
    rw [epochs, Function.iterate_succ_apply']
    exact ih.nextEpoch hexp h

theorem factorial_pos (n : ℕ) : (0 : K) < factorial n := by
  rw [factorial_eq]
  exact Nat.cast_pos.mpr n.factorial_pos

theorem Fits.epochDivisors_pos {e : EMFSD K} (he : Fits counters e) (hexp : ∀ x : K, 0 < exp x)
    (h : ∃ c ∈ counters, c ≠ 0) : ∀ d ∈ e.epochDivisors exp, 0 < d := by
  have hw := he.w_pos h
  have hbeta (beta : List ℕ) : ∀ d ∈ betaDivisors (K := K) e.w beta, 0 < d := by
    intro d hd
    simp only [betaDivisors, List.mem_flatMap, List.mem_cons, List.not_mem_nil, or_false] at hd
    obtain ⟨si,-,rfl | rfl⟩ := hd
    · exact hw
    · exact factorial_pos _
  intro d hd
  simp only [epochDivisors, List.cons_append, List.mem_cons, List.mem_append, List.mem_flatMap,
    List.mem_map] at hd
  rcases hd with rfl | ⟨i,hi,hd⟩ | ⟨i,-,rfl⟩
  · exact hw
  · have hsize := (e.mem_sizes i).mp hi
    split_ifs at hd with hzero
    · exact absurd hd List.not_mem_nil
    have hmem : i ∈ counters := by
      rwa [he.counted_eq, List.count_eq_zero, not_not] at hzero
    simp only [List.mem_append, List.mem_flatMap, List.mem_map] at hd
    rcases hd with ⟨beta,-,hd⟩ | ⟨beta,-,hd | ⟨-,-,rfl⟩⟩
    · exact hbeta beta d hd
    · exact hbeta beta d hd
    · exact he.sumP_pos hexp h hmem (by omega)
  · exact he.nextEpoch_nNew_pos hexp h

end Ordered

section AnyArray

/-- Epochs keep the counters. -/
theorem epochs_counters (exp : K → K) (counters : List ℕ) (n : ℕ) :
    (epochs exp counters n).w = counters.length ∧
      (epochs exp counters n).counterDist = collectCounters counters := by
  induction n with
  | zero => exact ⟨rfl,rfl⟩
  | succ n ih =>
    rw [epochs, Function.iterate_succ_apply']
    exact ih

theorem epochs_ns_outside (exp : K → K) {counters : List ℕ} (n : ℕ) {v : ℕ}
    (hv : v ∉ Ico 1 (collectCounters counters).length) : (epochs exp counters n).ns v = 0 := by
  cases n with
  | zero => exact (setCounters_outside hv).2
  | succ n =>
    rw [epochs, Function.iterate_succ_apply']
    exact nextEpoch_ns_outside _ ((epochs_counters exp counters n).2.symm ▸ hv)

end AnyArray

section AllZero

variable {counters : List ℕ} (h : ∀ c ∈ counters, c = 0)
include h

theorem length_collectCounters_of_zero : (collectCounters counters).length = 1 := by
  rw [collectCounters, length_foldl_modify, List.length_replicate, Nat.add_eq_right]
  induction counters with
  | nil => rfl
  | cons c cs ih =>
    rw [List.foldl_cons, h c (by simp)]
    exact ih fun d hd => h d (by simp [hd])

/-- With no size to loop over, an epoch computes `lambda` and nothing else. -/
theorem epochDivisors_of_zero (exp : K → K) (n : ℕ) :
    (epochs exp counters n).sizes = [] ∧
      (epochs exp counters n).epochDivisors exp = [(counters.length : K)] := by
  obtain ⟨hw,hdist⟩ := epochs_counters exp counters n
  have hsizes : (epochs exp counters n).sizes = [] := by
    rw [sizes, hdist, length_collectCounters_of_zero h, Nat.sub_self, List.range'_zero]
  refine ⟨hsizes,?_⟩
  rw [epochDivisors, hsizes, hw]
  simp

end AllZero

/-- No estimate is negative, whatever the counters. -/
theorem epochs_ns_nonneg [LinearOrder K] [IsStrictOrderedRing K] (hexp : ∀ x : K, 0 < exp x)
    (counters : List ℕ) (n v : ℕ) : 0 ≤ (epochs exp counters n).ns v := by
  by_cases h : ∃ c ∈ counters, c ≠ 0
  · cases n with
    | zero =>
      by_cases hv : v ∈ Ico 1 (collectCounters counters).length
      · exact (setCounters_inside hv).2.ge.trans' (Nat.cast_nonneg _)
      · exact (setCounters_outside hv).2.ge
    | succ n =>
      rw [epochs, Function.iterate_succ_apply']
      exact (fits_epochs hexp h n).nextEpoch_ns_nonneg hexp h v
  · push Not at h
    refine (epochs_ns_outside exp n ?_).ge
    simp [length_collectCounters_of_zero h]

/-- The flows of one size have no more packets than the counters hold. -/
theorem mul_epochs_ns_le [LinearOrder K] [IsStrictOrderedRing K] (hexp : ∀ x : K, 0 < exp x)
    (counters : List ℕ) (n v : ℕ) : v * (epochs exp counters n).ns v ≤ counters.sum := by
  by_cases hv : v ∈ Ico 1 (collectCounters counters).length
  · by_cases h : ∃ c ∈ counters, c ≠ 0
    · have he := fits_epochs hexp h n
      rw [← he.packets, he.counterDist_eq]
      exact single_le_sum (f := fun v : ℕ => (v : K) * (epochs exp counters n).ns v)
        (fun w _ => mul_nonneg (Nat.cast_nonneg w) (epochs_ns_nonneg hexp counters n w)) hv
    · push Not at h
      rw [length_collectCounters_of_zero h] at hv
      exact absurd hv (by simp)
  · rw [epochs_ns_outside exp n hv, mul_zero]
    exact Nat.cast_nonneg _

/-- No run divides by zero, and packets are conserved. On an array of zeros the only
division is that by the number of counters. -/
theorem epochs_conserve_packets [LinearOrder K] [IsStrictOrderedRing K]
    (hexp : ∀ x : K, 0 < exp x) (counters : List ℕ) :
    ((∃ c ∈ counters, c ≠ 0) → ∀ n, let e := epochs exp counters n
      0 < (e.w : K) - e.counted 0 ∧ 0 < e.nNew ∧ (∀ i, 1 ≤ i → 0 < e.counted i → 0 < e.sumP exp i) ∧
      (∀ d ∈ setCountersDivisors (K := K) counters ++ e.epochDivisors exp, 0 < d) ∧
      ∑ v ∈ range e.counterDist.length, v * e.ns v = counters.sum ∧
      ∑ v ∈ range e.counterDist.length, e.distNew v = 1 ∧
      (1 ≤ n → ∃ s, e.nSum = some s ∧ (counters.countP (· ≠ 0) : K) ≤ s ∧ s ≤ counters.sum)) ∧
    (counters ≠ [] → (∀ c ∈ counters, c = 0) → setCountersDivisors (K := K) counters = [] ∧
      ∀ n, (epochs exp counters n).epochDivisors exp = [(counters.length : K)] ∧
        (0 : K) < counters.length) := by
  refine ⟨fun h n => ?_,fun hne hzero => ⟨?_,fun n => ?_⟩⟩
  · have he := fits_epochs hexp h n
    have hw : 0 < ((epochs exp counters n).w : K) - (epochs exp counters n).counted 0 := by
      rw [he.w_eq, he.counted_eq, length_sub_count_zero]
      exact Nat.cast_pos.mpr (occupied_pos h)
    have hrange {φ : ℕ → K} (hφ : φ 0 = 0) :
        ∑ v ∈ range (epochs exp counters n).counterDist.length, φ v =
          ∑ v ∈ Ico 1 (epochs exp counters n).counterDist.length, φ v := by
      rw [range_eq_Ico, sum_eq_sum_Ico_succ_bot
        (he.counterDist_eq ▸ length_collectCounters_pos counters), hφ, zero_add]
    refine ⟨hw,he.nNew_pos h,fun i hi hcounted => ?_,fun d hd => ?_,?_,?_,fun hn => ?_⟩
    · rw [he.counted_eq] at hcounted
      exact he.sumP_pos hexp h (List.count_pos_iff.mp hcounted) (by omega)
    · rcases List.mem_append.mp hd with hd | hd
      · obtain ⟨-,-,rfl⟩ := List.mem_map.mp hd
        rw [counted, setCounters, collectCounters_getD, length_sub_count_zero]
        exact Nat.cast_pos.mpr (occupied_pos h)
      · exact he.epochDivisors_pos hexp h d hd
    · rw [hrange (by simp), he.packets]
    · rw [hrange (he.distNew_outside 0 (by simp)), he.sum_distNew]
    · obtain ⟨n,rfl⟩ := Nat.exists_eq_add_of_le' hn
      refine ⟨_,?_,he.occupied_le,he.le_packets⟩
      rw [epochs, Function.iterate_succ_apply']
      rfl
  · rw [setCountersDivisors]
    exact List.map_eq_nil_iff.mpr (epochDivisors_of_zero hzero exp 0).1
  · exact ⟨(epochDivisors_of_zero hzero exp n).2,Nat.cast_pos.mpr (List.length_pos_iff.mpr hne)⟩

theorem epochs_conserve_packets_two_counters :
    let e : EMFSD ℚ := epochs (fun _ => 1) [2,0] 3
    ∑ v ∈ range e.counterDist.length, v * e.ns v = ([2,0].sum : ℕ) :=
  have hexp (x : ℚ) : 0 < (fun _ => 1 : ℚ → ℚ) x := one_pos
  ((epochs_conserve_packets hexp [2,0]).1 ⟨2,by simp,by decide⟩ 3).2.2.2.2.1

theorem all_zero_divides :
    ¬ (epochs (fun _ : ℚ => 1) [0] 0).epochDivisors (fun _ => 1) = [] := by
  rw [(epochDivisors_of_zero (by simp) _ 0).2]
  simp

end EMFSD
end SketchMonitor
