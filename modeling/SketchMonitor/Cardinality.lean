import Mathlib.Analysis.SpecialFunctions.Log.Basic
import SketchMonitor.Measurement
import SketchMonitor.ReportTotals

/-!
# The cardinality estimate

Linear counting never falls short of the counters in use, as long as one counter is
still zero. The loop over the heavy part adds the flows that the light part has not
counted, as long as no merged count wraps to zero.
-/

namespace SketchMonitor

open Finset FiniteSums

variable {hh lh : Hashing}

section LinearCounting

/-- The estimate for `m` counters in use out of `n`. -/
noncomputable def linearCount (n m : ℕ) : ℝ := n * Real.log (n / (n - m))

theorem le_linearCount {n m : ℕ} (hm : m < n) : (m : ℝ) ≤ linearCount n m := by
  have hn : (0 : ℝ) < n := Nat.cast_pos.mpr (by omega)
  have hfree : (0 : ℝ) < n - m := sub_pos.mpr (Nat.cast_lt.mpr hm)
  have hlog := Real.one_sub_inv_le_log_of_pos (div_pos hn hfree)
  rw [inv_div] at hlog
  calc (m : ℝ) = n * (1 - (n - m) / n) := by field_simp; ring
    _ ≤ linearCount n m := mul_le_mul_of_nonneg_left hlog hn.le

/-- The estimate stays below `b` exactly when enough counters are free. -/
theorem linearCount_lt_iff {n m : ℕ} (hm : m < n) {b : ℝ} :
    linearCount n m < b ↔ n * Real.exp (-(b / n)) < n - m := by
  have hn : (0 : ℝ) < n := Nat.cast_pos.mpr (by omega)
  have hfree : (0 : ℝ) < n - m := sub_pos.mpr (Nat.cast_lt.mpr hm)
  rw [linearCount, mul_comm, ← lt_div_iff₀ hn, Real.log_lt_iff_lt_exp (div_pos hn hfree),
    div_lt_iff₀ hfree, Real.exp_neg, ← div_eq_mul_inv, div_lt_iff₀ (Real.exp_pos _), mul_comm]

/-- The estimate is far below the range of `int` as long as few counters are in use. -/
theorem linearCount_le {n m : ℕ} (hm : m < n) : linearCount n m ≤ n * m := by
  have hn : (0 : ℝ) < n := Nat.cast_pos.mpr (by omega)
  have hone : (1 : ℝ) ≤ n - m := by
    have hcast : (m : ℝ) + 1 ≤ n := by exact_mod_cast hm
    linarith
  have hfree : (0 : ℝ) < n - m := zero_lt_one.trans_le hone
  have hlog := Real.log_le_sub_one_of_pos (div_pos hn hfree)
  calc linearCount n m ≤ n * (n / (n - m) - 1) := mul_le_mul_of_nonneg_left hlog hn.le
    _ = n * (m / (n - m)) := by field_simp; ring
    _ ≤ n * m := mul_le_mul_of_nonneg_left (div_le_self (Nat.cast_nonneg m) hone) hn.le

end LinearCounting

namespace LightPart

/-- The counters in use. -/
def inUse (l : LightPart lh) : ℕ := #{p | (l.counters p : ℕ) ≠ 0}

theorem inUse_le (l : LightPart lh) : l.inUse ≤ lh.size :=
  (card_filter_le _ _).trans_eq (by simp)

theorem inUse_le_sum (l : LightPart lh) : l.inUse ≤ ∑ p, (l.counters p : ℕ) := by
  rw [inUse, card_filter]
  exact sum_le_sum fun p _ => by split_ifs <;> omega

theorem HistogramOk.miceCard_eq {l : LightPart lh} (hl : l.HistogramOk) : l.miceCard = l.inUse := by
  have hsum := hl.sum_eq (fun v => if v ≠ 0 then (1 : ℤ) else 0) (by simp)
  rw [Fin.sum_univ_succ] at hsum
  have hbins : ((List.finRange 255).map fun i => l.miceDist i.succ).sum = l.inUse := by
    rw [inUse, card_filter, ← Fin.sum_univ_def]
    push_cast
    simpa using hsum
  have hlt := lh.size_lt
  have hle := l.inUse_le
  rw [miceCard, foldl_toInt32_add, hbins]
  exact toInt32_of_bounds (by omega) (by omega)

theorem HistogramOk.rate_eq {l : LightPart lh} (hl : l.HistogramOk) :
    l.rate ℝ = (lh.size - l.inUse) / lh.size := by
  have hlt := lh.size_lt
  have hle := l.inUse_le
  rw [rate, hl.miceCard_eq, toInt32_of_bounds (by omega) (by omega)]
  push_cast
  rfl

theorem HistogramOk.rate_pos_iff {l : LightPart lh} (hl : l.HistogramOk) :
    0 < l.rate ℝ ↔ l.inUse < lh.size := by
  rw [hl.rate_eq, div_pos_iff_of_pos_right (Nat.cast_pos.mpr lh.size_pos), sub_pos, Nat.cast_lt]

theorem HistogramOk.getCardinality_eq {l : LightPart lh} (hl : l.HistogramOk)
    (hfree : l.inUse < lh.size) : l.getCardinality Real.log =
      if ⌊linearCount lh.size l.inUse⌋ < 2^31 then some ⌊linearCount lh.size l.inUse⌋ else none := by
  have hnonneg : 0 ≤ linearCount lh.size l.inUse := (Nat.cast_nonneg _).trans (le_linearCount hfree)
  have harg : lh.size * Real.log (1 / l.rate ℝ) = linearCount lh.size l.inUse := by
    rw [hl.rate_eq, one_div_div, linearCount]
  have hlow : -2^31 ≤ ⌊linearCount lh.size l.inUse⌋ := by
    have := Int.floor_nonneg.mpr hnonneg
    omega
  rw [getCardinality, if_pos (hl.rate_pos_iff.mpr hfree), harg, toInt, trunc, if_pos hnonneg]
  simp only [hlow, true_and]

end LightPart

namespace ElasticSketch

/-- The merged count is no longer a count. -/
def Wraps (v : UInt32) (ex : ℕ) : Prop := highestBitIs1 v ∧ count v + ex = 2^31

/-- The slot counts a flow that the light part has not counted. -/
def CountsAlone (v : UInt32) (ex : ℕ) : Prop := count v ≠ 0 ∧ (highestBitIs1 v → ex = 0)

instance (v : UInt32) (ex : ℕ) : Decidable (Wraps v ex) := inferInstanceAs (Decidable (_ ∧ _))

instance (v : UInt32) (ex : ℕ) : Decidable (CountsAlone v ex) :=
  inferInstanceAs (Decidable (_ ∧ (_ → _)))

/-- Where no merged count wraps, a flagged flow with a light estimate is taken out of `card`
and put in again, as the light part has counted it. -/
theorem mergeCard_eq {v : UInt32} {ex : ℕ} (hex : ex < 2^31) (hwrap : ¬ Wraps v ex) {card : ℤ}
    (hlow : 0 ≤ card) (hhigh : card < 2^31) :
    mergeCard v ex card = checkInt (card + if CountsAlone v ex then 1 else 0) := by
  have hmerged : mergedWith v ex ≠ 0 ↔
      (if highestBitIs1 v then (count v + ex) % 2^31 else count v) ≠ 0 := by
    rw [← mergedWith_toNat, ne_eq, ne_eq, ← UInt32.toNat_inj]
    rfl
  have hlt := count_lt v
  have hsame : checkInt card = some card := checkInt_of_bounds (by omega) hhigh
  simp only [mergeCard, Nat.cast_ne_zero]
  by_cases hflag : highestBitIs1 v = true
  · rw [if_pos hflag] at hmerged
    by_cases hzero : ex = 0
    · rw [hzero, add_zero, Nat.mod_eq_of_lt hlt, Nat.cast_zero] at hmerged
      by_cases hcount : count v = 0 <;> simp [CountsAlone, hflag, hzero, hcount, hsame, hmerged]
    · have hne : (count v + ex) % 2^31 ≠ 0 := fun hmod => hwrap ⟨hflag,by omega⟩
      have hdown : checkInt (card - 1) = some (card - 1) :=
        checkInt_of_bounds (by omega) (by omega)
      simp [CountsAlone, hflag, hzero, hmerged.mpr hne, hdown, hsame]
  · rw [if_neg hflag] at hmerged
    by_cases hcount : count v = 0 <;> simp [CountsAlone, hflag, hcount, hsame, hmerged]

section Loop

variable {A : Type*} (v : A → UInt32) (ex : A → ℕ)

/-- A chain of additions that do not fall is defined exactly when its sum is an `int`. -/
theorem foldlM_mergeCard (xs : List A) (hex : ∀ x ∈ xs, ex x < 2^31)
    (hwrap : ∀ x ∈ xs, ¬ Wraps (v x) (ex x)) {card : ℤ} (hlow : 0 ≤ card) (hhigh : card < 2^31) :
    xs.foldlM (fun card x => mergeCard (v x) (ex x) card) card =
      checkInt (card + (xs.countP fun x => CountsAlone (v x) (ex x) : ℕ)) := by
  induction xs generalizing card with
  | nil => simpa using (checkInt_of_bounds (by omega) hhigh).symm
  | cons x xs ih =>
    rw [List.foldlM_cons, mergeCard_eq (hex x (by simp)) (hwrap x (by simp)) hlow hhigh,
      List.countP_cons]
    have hrest {next : ℤ} (h₀ : 0 ≤ next) (h₁ : next < 2^31) := ih (fun y hy => hex y (by simp [hy]))
      (fun y hy => hwrap y (by simp [hy])) h₀ h₁
    by_cases hnext : card + (if CountsAlone (v x) (ex x) then 1 else 0) < 2^31
    · have hnonneg : 0 ≤ card + (if CountsAlone (v x) (ex x) then 1 else 0) := by
        split_ifs <;> omega
      rw [checkInt_of_bounds (by omega) hnext]
      refine (hrest hnonneg hnext).trans (congrArg checkInt ?_)
      by_cases hcount : CountsAlone (v x) (ex x)
      · simp only [hcount, decide_true, if_true]
        push_cast
        ring
      · simp only [hcount, decide_false, if_false, Bool.false_eq_true, add_zero]
    · have hone : CountsAlone (v x) (ex x) := by
        by_contra hnot
        rw [if_neg hnot, add_zero] at hnext
        exact hnext hhigh
      rw [if_pos hone] at hnext ⊢
      rw [checkInt, if_neg (by omega), checkInt, if_neg ?_]
      · rfl
      · rw [if_pos (decide_eq_true hone)]
        push_cast
        omega

end Loop

variable (s : ElasticSketch hh lh)

/-- The unflagged slots with a nonzero count. -/
def unflaggedFlows : ℕ := #{ij | highestBitIs1 (s.slotVal ij) = false ∧ count (s.slotVal ij) ≠ 0}

/-- The slots whose flow the light part has not counted. -/
def flowsAlone : ℕ := #{ij | CountsAlone (s.slotVal ij) (s.light (s.slotKey ij))}

theorem unflaggedFlows_le : s.unflaggedFlows ≤ s.flowsAlone := by
  refine card_le_card fun ij hij => ?_
  simp only [mem_filter, mem_univ, true_and] at hij ⊢
  exact ⟨hij.2,fun hflag => absurd hflag (by simp [hij.1])⟩

theorem flowsAlone_le : s.flowsAlone ≤ hh.size * maxValidCounter :=
  (card_filter_le _ _).trans_eq (by simp)

/-- No count of a flagged slot wraps when the light estimate is added. -/
def NoneWraps : Prop := ∀ ij, ¬ Wraps (s.slotVal ij) (s.light (s.slotKey ij))

variable {s}

theorem NoneWraps.getCardinality_eq (hwrap : s.NoneWraps) (hs : s.StoredCopied) {card : ℤ}
    (hlight : s.lightPart.getCardinality Real.log = some card) (hlow : 0 ≤ card)
    (hhigh : card < 2^31) : s.getCardinality Real.log = checkInt (card + s.flowsAlone) := by
  have hkey (ij) : s.lightPart.query (s.slotKey ij).strncpy = s.light (s.slotKey ij) := by
    rw [slotKey, hs]
    rfl
  have hex (ij) : s.light (s.slotKey ij) < 2^31 :=
    (s.lightPart.counters _).isLt.trans (by norm_num)
  have hcount : (slots hh).countP (fun ij => CountsAlone (s.slotVal ij) (s.light (s.slotKey ij))) =
      s.flowsAlone := by
    rw [← FiniteSums.sum_map_indicator, sum_slots, flowsAlone, card_filter]
  rw [getCardinality, hlight, Option.bind_some]
  simp only [hkey]
  rw [foldlM_mergeCard s.slotVal (fun ij => s.light (s.slotKey ij)) _ (fun ij _ => hex ij)
    (fun ij _ => hwrap ij) hlow hhigh, hcount]

variable (s)

/-- Enough light counters are free, and no merged count wraps. The bound on the free counters
is less than one as long as the light part is far smaller than the range of `int`. -/
structure CountsVisible : Prop where
  free : lh.size * Real.exp (-((2^31 - s.flowsAlone) / lh.size)) < lh.size - s.lightPart.inUse
  noneWraps : s.NoneWraps

variable {s}

theorem CountsVisible.inUse_lt (h : s.CountsVisible) : s.lightPart.inUse < lh.size := by
  have hn : (0 : ℝ) < lh.size := Nat.cast_pos.mpr lh.size_pos
  have hpos := (mul_pos hn (Real.exp_pos _)).trans h.free
  exact_mod_cast sub_pos.mp hpos

/-- Enough counters are free exactly when the estimate together with the flows that the light
part has not counted is an `int`. -/
theorem enough_free_iff (hfree : s.lightPart.inUse < lh.size) :
    lh.size * Real.exp (-((2^31 - s.flowsAlone) / lh.size)) < lh.size - s.lightPart.inUse ↔
      ⌊linearCount lh.size s.lightPart.inUse⌋ + s.flowsAlone < 2^31 := by
  rw [← linearCount_lt_iff hfree, ← lt_sub_iff_add_lt, Int.floor_lt]
  norm_num

theorem le_floor_linearCount (hfree : s.lightPart.inUse < lh.size) :
    (s.lightPart.inUse : ℤ) ≤ ⌊linearCount lh.size s.lightPart.inUse⌋ :=
  Int.le_floor.mpr (by exact_mod_cast le_linearCount hfree)

theorem CountsVisible.getCardinality (h : s.CountsVisible) (hs : s.Reachable) :
    s.getCardinality Real.log =
      some (⌊linearCount lh.size s.lightPart.inUse⌋ + s.flowsAlone) := by
  have hfree := h.inUse_lt
  have hfits := (enough_free_iff hfree).mp h.free
  have hle := le_floor_linearCount hfree
  have hlight := hs.histogramOk.getCardinality_eq hfree
  rw [if_pos (by omega)] at hlight
  rw [h.noneWraps.getCardinality_eq hs.storedCopied hlight (by omega) (by omega)]
  exact checkInt_of_bounds (by omega) hfits

theorem countsVisible_of_getCardinality (hs : s.Reachable) (hfree : s.lightPart.inUse < lh.size)
    (hwrap : s.NoneWraps) {card : ℤ} (hcard : s.getCardinality Real.log = some card) :
    s.CountsVisible := by
  have hle := le_floor_linearCount hfree
  have hlight := hs.histogramOk.getCardinality_eq hfree
  refine ⟨(enough_free_iff hfree).mpr ?_,hwrap⟩
  split_ifs at hlight with hfits
  · rw [hwrap.getCardinality_eq hs.storedCopied hlight (by omega) hfits, checkInt] at hcard
    split_ifs at hcard with hsum
    exact hsum.2
  · rw [ElasticSketch.getCardinality, hlight] at hcard
    exact absurd hcard (by simp)

/-- In every reachable state the estimate is defined and reaches what is visible under
`CountsVisible`. A light counter must be zero for that, and where no merged count wraps, all
of `CountsVisible` must hold. -/
theorem cardinality_iff_countsVisible (s : ElasticSketch hh lh) (hs : s.Reachable) :
    (s.CountsVisible → 0 < s.lightPart.rate ℝ ∧ ∃ card, s.getCardinality Real.log = some card ∧
      (s.lightPart.inUse : ℤ) + s.unflaggedFlows ≤ card) ∧
    ((0 < s.lightPart.rate ℝ ∧ ∃ card, s.getCardinality Real.log = some card ∧
      (s.lightPart.inUse : ℤ) + s.unflaggedFlows ≤ card) →
        s.lightPart.inUse < lh.size ∧ (s.NoneWraps → s.CountsVisible)) := by
  rw [hs.histogramOk.rate_pos_iff]
  constructor
  · intro h
    have hle := le_floor_linearCount h.inUse_lt
    have hflows := s.unflaggedFlows_le
    exact ⟨h.inUse_lt,_,h.getCardinality hs,by omega⟩
  · rintro ⟨hfree,card,hcard,-⟩
    exact ⟨hfree,fun hwrap => countsVisible_of_getCardinality hs hfree hwrap hcard⟩

theorem cardinality_iff_countsVisible_two_flows :
    let h : Hashing := ⟨1,by decide,by decide,fun _ => 0⟩
    ∃ s : ElasticSketch h h, insertAll h h [Key.memset 7,Key.memset 8] = some s ∧
      0 < s.lightPart.rate ℝ ∧ ∃ card, s.getCardinality Real.log = some card ∧
        (s.lightPart.inUse : ℤ) + s.unflaggedFlows ≤ card := by
  intro h
  obtain ⟨s,hrun,hfree,hwrap,hflows⟩ : ∃ s : ElasticSketch h h,
      insertAll h h [Key.memset 7,Key.memset 8] = some s ∧ s.lightPart.inUse = 0 ∧
        s.NoneWraps ∧ s.flowsAlone = 2 :=
    ⟨_,(Option.some_get (by decide +kernel)).symm,by decide +kernel,
      by unfold NoneWraps; decide +kernel,by decide +kernel⟩
  have hsize : h.size = 1 := rfl
  refine ⟨s,hrun,(cardinality_iff_countsVisible s (reachable_of_insertAll hrun)).1 ⟨?_,hwrap⟩⟩
  refine (enough_free_iff (by omega)).mpr ?_
  simp [hfree, hsize, hflows, linearCount]

/-- Eight flows of one packet leave no counter of a small light part zero. -/
theorem rate_not_pos_eight_flows :
    let h : Hashing := ⟨1,by decide,by decide,fun _ => 0⟩
    ∃ s : ElasticSketch h h, insertAll h h ([1,2,3,4,5,6,7,8].map Key.memset) = some s ∧
      ¬ 0 < s.lightPart.rate ℝ := by
  intro h
  obtain ⟨s,hrun,hfull⟩ : ∃ s : ElasticSketch h h,
      insertAll h h ([1,2,3,4,5,6,7,8].map Key.memset) = some s ∧ ¬ s.lightPart.inUse < h.size :=
    ⟨_,(Option.some_get (by decide +kernel)).symm,by decide +kernel⟩
  exact ⟨s,hrun,fun h => hfull ((reachable_of_insertAll hrun).histogramOk.rate_pos_iff.mp h)⟩

end ElasticSketch
end SketchMonitor
