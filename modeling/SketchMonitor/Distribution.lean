import SketchMonitor.EMEpochs
import SketchMonitor.Measurement

/-!
# The bins of the flow size distribution

Each flagged slot takes a flow out of the bin of its light estimate and puts one into
the bin of its merged count. The bins start from what the light part estimates, which
knows nothing of the flags, so a bin can be emptied more often than it has flows.
-/

namespace SketchMonitor

open Finset

variable {hh lh : Hashing}

section Vectors

theorem getD_set_add {dist : List ℤ} {i : ℕ} (hi : i < dist.length) (d : ℤ) (w : ℕ) :
    (dist.set i (dist.getD i 0 + d)).getD w 0 = dist.getD w 0 + if i = w then d else 0 := by
  by_cases hw : i = w
  · subst hw
    simp [List.getD_eq_getElem?_getD, hi]
  · simp [List.getD_eq_getElem?_getD, hw]

theorem addAt_spec {dist : List ℤ} {i : ℕ} (hi : i < dist.length) {d : ℤ}
    (hlow : -2^31 ≤ dist.getD i 0 + d) (hhigh : dist.getD i 0 + d < 2^31) :
    ∃ dist', ElasticSketch.addAt dist i d = some dist' ∧ dist'.length = dist.length ∧
      ∀ w, dist'.getD w 0 = dist.getD w 0 + if i = w then d else 0 :=
  ⟨_,by rw [ElasticSketch.addAt, if_pos hi, checkInt_of_bounds hlow hhigh]; rfl,
    List.length_set,getD_set_add hi d⟩

theorem getD_append_replicate {A : Type*} (xs : List A) (d : A) (n w : ℕ) :
    (xs ++ List.replicate n d).getD w d = xs.getD w d := by
  rcases lt_or_ge w xs.length with hw | hw
  · rw [List.getD_append _ _ _ _ hw]
  · rw [List.getD_append_right _ _ _ _ hw, List.getD_eq_default _ _ hw]
    rcases lt_or_ge (w - xs.length) n with hn | hn
    · exact List.getD_replicate d hn
    · exact List.getD_eq_default _ _ (by rwa [List.length_replicate])

theorem forall_mem_iff_getD (dist : List ℤ) : (∀ x ∈ dist, 0 ≤ x) ↔ ∀ w, 0 ≤ dist.getD w 0 := by
  constructor
  · intro h w
    rcases lt_or_ge w dist.length with hw | hw
    · rw [List.getD_eq_getElem _ _ hw]
      exact h _ (List.getElem_mem hw)
    · rw [List.getD_eq_default _ _ hw]
  · intro h x hx
    obtain ⟨w,hw,rfl⟩ := List.mem_iff_getElem.mp hx
    have := h w
    rwa [List.getD_eq_getElem _ _ hw] at this

end Vectors

namespace ElasticSketch

/-- What one slot with light estimate `ex` changes in bin `w`. -/
def binChange (v : UInt32) (ex w : ℕ) : ℤ :=
  (if w ≠ 0 ∧ (mergedWith v ex).toNat = w then 1 else 0) -
    if w ≠ 0 ∧ highestBitIs1 v ∧ ex = w then 1 else 0

/-- The largest merged count cannot be stored. -/
def Storable (v : UInt32) (ex : ℕ) : Prop := (mergedWith v ex).toNat + 1 ≠ 2^31

/-- No bin leaves the range of `int` in as many rounds of the loop. -/
def RoomFor (rounds : ℕ) (dist : List ℤ) : Prop :=
  ∀ w, -2^31 ≤ dist.getD w 0 - rounds ∧ dist.getD w 0 + rounds < 2^31

theorem takeOut_spec (v : UInt32) {ex : ℕ} {dist : List ℤ} (hex : ex < dist.length)
    (hlow : ∀ w, -2^31 ≤ dist.getD w 0 - 1) (hhigh : ∀ w, dist.getD w 0 < 2^31) :
    ∃ dist', takeOut v ex dist = some dist' ∧ dist'.length = dist.length ∧ ∀ w,
      dist'.getD w 0 = dist.getD w 0 - if w ≠ 0 ∧ highestBitIs1 v ∧ ex = w then 1 else 0 := by
  by_cases h : highestBitIs1 v ∧ (ex : ℤ) ≠ 0
  · obtain ⟨dist',hdist',hlen,hbin⟩ := addAt_spec hex (hlow ex)
      (lt_of_le_of_lt (by omega) (hhigh ex))
    refine ⟨dist',(if_pos h).trans hdist',hlen,fun w => ?_⟩
    obtain ⟨hflag,hne⟩ := h
    rw [hbin w]
    by_cases hw : ex = w
    · rw [if_pos hw, if_pos ⟨by omega,hflag,hw⟩]
      rfl
    · rw [if_neg hw, if_neg fun hcond => hw hcond.2.2, add_zero, sub_zero]
  · refine ⟨dist,if_neg h,rfl,fun w => ?_⟩
    rw [if_neg, sub_zero]
    rintro ⟨hw,hflag,rfl⟩
    exact h ⟨hflag,by omega⟩

theorem putIn_spec {val : ℕ} (hroom : val + 1 ≠ 2^31) {dist : List ℤ}
    (hlow : ∀ w, -2^31 ≤ dist.getD w 0) (hhigh : ∀ w, dist.getD w 0 + 1 < 2^31) :
    ∃ dist', putIn val dist = some dist' ∧ dist.length ≤ dist'.length ∧ ∀ w,
      dist'.getD w 0 = dist.getD w 0 + if w ≠ 0 ∧ val = w then 1 else 0 := by
  by_cases hval : val = 0
  · refine ⟨dist,if_pos hval,le_rfl,fun w => ?_⟩
    rw [if_neg fun hcond => hcond.1 (hcond.2.symm.trans hval), add_zero]
  · have hlong : val < (dist ++ List.replicate (val + 1 - dist.length) 0).length := by
      rw [List.length_append, List.length_replicate]
      omega
    obtain ⟨dist',hdist',hlen,hbin⟩ := addAt_spec hlong (d := 1)
      (by rw [getD_append_replicate]; exact (hlow val).trans (by omega))
      (by rw [getD_append_replicate]; exact hhigh val)
    refine ⟨dist',by rw [putIn, if_neg hval, if_neg hroom, hdist'],?_,fun w => ?_⟩
    · rw [hlen, List.length_append]
      exact Nat.le_add_right _ _
    · rw [hbin, getD_append_replicate]
      by_cases hw : val = w
      · rw [if_pos hw, if_pos ⟨hw ▸ hval,hw⟩]
      · rw [if_neg hw, if_neg fun hcond => hw hcond.2]

theorem binChange_bounds (v : UInt32) (ex w : ℕ) :
    -1 ≤ binChange v ex w ∧ binChange v ex w ≤ 1 := by
  unfold binChange
  split_ifs <;> omega

/-- A round needs room for itself and leaves it for the others. -/
theorem mergeDist_spec {v : UInt32} {ex rounds : ℕ} {dist : List ℤ} (hex : ex < dist.length)
    (hstore : Storable v ex) (hroom : RoomFor (rounds + 1) dist) :
    ∃ dist', mergeDist v ex dist = some dist' ∧ dist.length ≤ dist'.length ∧
      RoomFor rounds dist' ∧ ∀ w, dist'.getD w 0 = dist.getD w 0 + binChange v ex w := by
  have hbounds (w : ℕ) := hroom w
  push_cast at hbounds
  obtain ⟨dist₁,hdist₁,hlen₁,hbin₁⟩ := takeOut_spec v hex (fun w => by have := hbounds w; omega)
    fun w => by have := hbounds w; omega
  have hbin₁_bounds (w : ℕ) : dist.getD w 0 - 1 ≤ dist₁.getD w 0 ∧
      dist₁.getD w 0 ≤ dist.getD w 0 := by
    rw [hbin₁]
    split_ifs <;> omega
  obtain ⟨dist₂,hdist₂,hlen₂,hbin₂⟩ := @putIn_spec _ hstore dist₁
    (fun w => by have := hbounds w; have := hbin₁_bounds w; omega)
    fun w => by have := hbounds w; have := hbin₁_bounds w; omega
  have hbin (w : ℕ) : dist₂.getD w 0 = dist.getD w 0 + binChange v ex w := by
    rw [hbin₂, hbin₁, binChange]
    ring
  refine ⟨dist₂,by rw [mergeDist, hdist₁, Option.bind_some, hdist₂],hlen₁ ▸ hlen₂,fun w => ?_,hbin⟩
  have := hbounds w
  have := binChange_bounds v ex w
  rw [hbin]
  omega

theorem storable_of_mergeDist {v : UInt32} {ex : ℕ} {dist dist' : List ℤ}
    (h : mergeDist v ex dist = some dist') : Storable v ex := by
  intro hfull
  obtain ⟨dist₁,-,hput⟩ := Option.bind_eq_some_iff.mp h
  rw [putIn, if_neg (by omega), if_pos hfull] at hput
  exact absurd hput (by simp)

section Loop

variable {A : Type*} (v : A → UInt32) (ex : A → ℕ)

/-- The loop over any slots whose estimates are inside the vector. -/
theorem foldlM_mergeDist (xs : List A) (dist : List ℤ) (hex : ∀ x ∈ xs, ex x < dist.length)
    (hstore : ∀ x ∈ xs, Storable (v x) (ex x)) (hroom : RoomFor xs.length dist) :
    ∃ dist', xs.foldlM (fun dist x => mergeDist (v x) (ex x) dist) dist = some dist' ∧
      ∀ w, dist'.getD w 0 = dist.getD w 0 + (xs.map fun x => binChange (v x) (ex x) w).sum := by
  induction xs generalizing dist with
  | nil => exact ⟨dist,rfl,by simp⟩
  | cons x xs ih =>
    obtain ⟨dist₁,hdist₁,hlen,hroom₁,hbin₁⟩ :=
      mergeDist_spec (hex x (by simp)) (hstore x (by simp)) hroom
    obtain ⟨dist₂,hdist₂,hbin₂⟩ := ih dist₁ (fun y hy => (hex y (by simp [hy])).trans_le hlen)
      (fun y hy => hstore y (by simp [hy])) hroom₁
    refine ⟨dist₂,by simpa [hdist₁] using hdist₂,fun w => ?_⟩
    rw [hbin₂, hbin₁, List.map_cons, List.sum_cons, add_assoc]

theorem storable_of_foldlM {xs : List A} {dist dist' : List ℤ}
    (h : xs.foldlM (fun dist x => mergeDist (v x) (ex x) dist) dist = some dist') :
    ∀ x ∈ xs, Storable (v x) (ex x) := by
  induction xs generalizing dist with
  | nil => simp
  | cons x xs ih =>
    obtain ⟨dist₁,hdist₁,hrest⟩ := Option.bind_eq_some_iff.mp h
    intro y hy
    rcases List.mem_cons.mp hy with rfl | hy
    · exact storable_of_mergeDist hdist₁
    · exact ih hrest y hy

end Loop

end ElasticSketch

namespace LightPart

variable (l : LightPart lh)

/-- The estimated number of flows of one size, as an integer. -/
noncomputable def estimate (v : ℕ) : ℤ := trunc ((l.emFsdAlgo Real.exp).ns v)

theorem estimate_nonneg (v : ℕ) : 0 ≤ l.estimate v := by
  have hns : 0 ≤ (l.emFsdAlgo Real.exp).ns v := EMFSD.epochs_ns_nonneg Real.exp_pos l.tmpCounters 10 v
  rw [estimate, trunc, if_pos hns]
  exact Int.floor_nonneg.mpr hns

theorem estimate_outside {v : ℕ} (hv : v ∉ Ico 1 (EMFSD.collectCounters l.tmpCounters).length) :
    l.estimate v = 0 := by
  have hns : (l.emFsdAlgo Real.exp).ns v = 0 := EMFSD.epochs_ns_outside Real.exp 10 hv
  rw [estimate, hns, trunc, if_pos le_rfl, Int.floor_zero]

theorem mul_estimate_le (v : ℕ) : v * l.estimate v ≤ (l.tmpCounters.sum : ℤ) := by
  have hns : 0 ≤ (l.emFsdAlgo Real.exp).ns v := EMFSD.epochs_ns_nonneg Real.exp_pos l.tmpCounters 10 v
  have hle : v * (l.emFsdAlgo Real.exp).ns v ≤ l.tmpCounters.sum :=
    EMFSD.mul_epochs_ns_le Real.exp_pos l.tmpCounters 10 v
  have hfloor : ((v * l.estimate v : ℤ) : ℝ) ≤ (l.tmpCounters.sum : ℤ) := by
    rw [estimate, trunc, if_pos hns, Int.cast_mul, Int.cast_natCast, Int.cast_natCast]
    exact (mul_le_mul_of_nonneg_left (Int.floor_le _) (Nat.cast_nonneg v)).trans hle
  exact_mod_cast hfloor

theorem estimate_le (v : ℕ) : l.estimate v ≤ (l.tmpCounters.sum : ℤ) := by
  rcases Nat.eq_zero_or_pos v with rfl | hv
  · rw [l.estimate_outside (by simp)]
    exact Nat.cast_nonneg _
  · exact (le_mul_of_one_le_left (l.estimate_nonneg v) (Nat.one_le_cast.mpr hv)).trans
      (l.mul_estimate_le v)

/-- The vector of the light part, if every estimate fits. -/
noncomputable def bins : List ℤ :=
  (List.range (EMFSD.collectCounters l.tmpCounters).length).map l.estimate

theorem getDistribution_eq_some_iff (dist : List ℤ) :
    l.getDistribution Real.exp = some dist ↔ (∀ v, l.estimate v < 2^31) ∧ dist = l.bins := by
  have hlen : (l.emFsdAlgo Real.exp).counterDist = EMFSD.collectCounters l.tmpCounters :=
    (EMFSD.epochs_counters Real.exp l.tmpCounters 10).2
  have hfits : (∀ v ∈ List.range (EMFSD.collectCounters l.tmpCounters).length,
      -2^31 ≤ l.estimate v ∧ l.estimate v < 2^31) ↔ ∀ v, l.estimate v < 2^31 := by
    refine ⟨fun h v => ?_,fun h v _ => ⟨by have := l.estimate_nonneg v; omega,h v⟩⟩
    by_cases hv : v ∈ Ico 1 (EMFSD.collectCounters l.tmpCounters).length
    · exact (h v (List.mem_range.mpr (mem_Ico.mp hv).2)).2
    · rw [l.estimate_outside hv]
      norm_num
  rw [getDistribution, hlen, ← hfits]
  exact Runs.mapM_ite_eq_some_iff (fun v => -2^31 ≤ l.estimate v ∧ l.estimate v < 2^31)
    l.estimate _ dist

theorem getD_bins (w : ℕ) : l.bins.getD w 0 = l.estimate w := by
  rcases lt_or_ge w (EMFSD.collectCounters l.tmpCounters).length with hw | hw
  · simp [bins, List.getD_eq_getElem?_getD, hw]
  · rw [List.getD_eq_default _ _ (by simpa [bins] using hw), l.estimate_outside]
    simp only [mem_Ico]
    omega

/-- Light estimates are indices into the vector. -/
theorem counter_lt_length_bins (p : Fin lh.size) : (l.counters p : ℕ) < l.bins.length := by
  rw [bins, List.length_map, List.length_range]
  exact EMFSD.lt_length_collectCounters (List.mem_ofFn.mpr ⟨p,rfl⟩)

end LightPart

namespace ElasticSketch

variable (s : ElasticSketch hh lh) (buffers : Buffers hh)

/-- How many slots take a flow out of a bin, and how many put one in. -/
def takenOut (v : ℕ) : ℕ := #{ij | highestBitIs1 (s.slotVal ij) ∧ s.light (buffers ij) = v}

def putInto (v : ℕ) : ℕ := #{ij | (mergedWith (s.slotVal ij) (s.light (buffers ij))).toNat = v}

theorem sum_binChange (w : ℕ) :
    ((slots hh).map fun ij => binChange (s.slotVal ij) (s.light (buffers ij)) w).sum =
      if w ≠ 0 then (s.putInto buffers w : ℤ) - s.takenOut buffers w else 0 := by
  rw [sum_slots]
  by_cases hw : w = 0
  · simp [binChange, hw]
  · simp [binChange, hw, sum_sub_distrib, putInto, takenOut]

theorem length_slots : (slots hh).length = hh.size * maxValidCounter := by
  simp [slots, List.length_flatMap]

/-- The packets in the light part and the slots fit an `int` together. -/
def HasRoom : Prop := s.lightPart.tmpCounters.sum + hh.size * maxValidCounter < 2^31

/-- Merged counts fit, and no bin is emptied beyond what it holds. -/
def BinsCovered : Prop :=
  (∀ ij, Storable (s.slotVal ij) (s.light (buffers ij))) ∧
    ∀ v, v ≠ 0 → (s.takenOut buffers v : ℤ) ≤ s.lightPart.estimate v + s.putInto buffers v

/-- No count is the largest one, and no flagged slot finds a light counter in use, so that no
flow is taken out of a bin. -/
structure BinsKept : Prop where
  room : s.HasRoom
  below : ∀ ij, count (s.slotVal ij) + 1 ≠ 2^31
  untouched : ∀ ij, highestBitIs1 (s.slotVal ij) → s.light (buffers ij) = 0

variable {s buffers}

theorem HasRoom.getDistribution_light (h : s.HasRoom) :
    s.lightPart.getDistribution Real.exp = some s.lightPart.bins := by
  refine (s.lightPart.getDistribution_eq_some_iff _).mpr ⟨fun v => ?_,rfl⟩
  have hle := s.lightPart.estimate_le v
  unfold HasRoom at h
  omega

theorem HasRoom.roomFor_bins (h : s.HasRoom) : RoomFor (slots hh).length s.lightPart.bins := by
  intro w
  have hnonneg := s.lightPart.estimate_nonneg w
  have hle := s.lightPart.estimate_le w
  unfold HasRoom at h
  rw [s.lightPart.getD_bins, length_slots]
  omega

/-- With room for all slots, the loop adds up what they change. -/
theorem HasRoom.getDistribution (h : s.HasRoom)
    (hstore : ∀ ij, Storable (s.slotVal ij) (s.light (buffers ij))) :
    ∃ dist, s.getDistribution Real.exp buffers = some dist ∧ ∀ w, dist.getD w 0 =
      s.lightPart.bins.getD w 0 +
        ((slots hh).map fun ij => binChange (s.slotVal ij) (s.light (buffers ij)) w).sum := by
  obtain ⟨dist,hdist,hbin⟩ := foldlM_mergeDist s.slotVal (fun ij => s.light (buffers ij))
    (slots hh) _ (fun _ _ => s.lightPart.counter_lt_length_bins _) (fun ij _ => hstore ij)
    h.roomFor_bins
  refine ⟨dist,?_,hbin⟩
  rw [ElasticSketch.getDistribution, h.getDistribution_light]
  exact hdist

theorem storable_of_getDistribution {dist : List ℤ}
    (h : s.getDistribution Real.exp buffers = some dist) (ij) :
    Storable (s.slotVal ij) (s.light (buffers ij)) := by
  obtain ⟨light,-,hloop⟩ := Option.bind_eq_some_iff.mp h
  exact storable_of_foldlM s.slotVal (fun ij => s.light (buffers ij)) hloop ij (mem_slots ij)

theorem forall_mem_iff_covered {dist : List ℤ} (hbin : ∀ w, dist.getD w 0 =
    s.lightPart.bins.getD w 0 +
      ((slots hh).map fun ij => binChange (s.slotVal ij) (s.light (buffers ij)) w).sum) :
    (∀ x ∈ dist, 0 ≤ x) ↔ ∀ v, v ≠ 0 →
      (s.takenOut buffers v : ℤ) ≤ s.lightPart.estimate v + s.putInto buffers v := by
  rw [forall_mem_iff_getD]
  refine forall_congr' fun w => ?_
  rw [hbin, s.lightPart.getD_bins, sum_binChange]
  have hestimate := s.lightPart.estimate_nonneg w
  split_ifs with hw
  · rw [forall_prop_of_true hw]
    omega
  · exact iff_of_true (by omega) fun hne => absurd hne hw

/-- What the vector holds in terms of the estimate of the light part. -/
theorem HasRoom.distribution_iff (h : s.HasRoom) :
    (∃ dist, s.getDistribution Real.exp buffers = some dist ∧ ∀ x ∈ dist, 0 ≤ x) ↔
      s.BinsCovered buffers := by
  constructor
  · rintro ⟨dist,hdist,hnonneg⟩
    have hstore := storable_of_getDistribution hdist
    obtain ⟨dist',hdist',hbin⟩ := h.getDistribution hstore
    obtain rfl : dist' = dist := Option.some.inj (hdist'.symm.trans hdist)
    exact ⟨hstore,(forall_mem_iff_covered hbin).mp hnonneg⟩
  · rintro ⟨hstore,hcovered⟩
    obtain ⟨dist,hdist,hbin⟩ := h.getDistribution hstore
    exact ⟨dist,hdist,(forall_mem_iff_covered hbin).mpr hcovered⟩

theorem BinsKept.storable (h : s.BinsKept buffers) (ij) :
    Storable (s.slotVal ij) (s.light (buffers ij)) := by
  have hbelow := h.below ij
  rw [Storable, mergedWith_toNat]
  split_ifs with hflag
  · rwa [h.untouched ij hflag, add_zero, Nat.mod_eq_of_lt (count_lt _)]
  · exact hbelow

/-- A vector without negative bins is returned wherever no flow is taken out of a bin. -/
theorem distribution_of_binsKept (s : ElasticSketch hh lh) (buffers : Buffers hh)
    (h : s.BinsKept buffers) :
    ∃ dist, s.getDistribution Real.exp buffers = some dist ∧ ∀ x ∈ dist, 0 ≤ x := by
  refine h.room.distribution_iff.mpr ⟨h.storable,fun v hv => ?_⟩
  have hnone : s.takenOut buffers v = 0 := by
    refine card_eq_zero.mpr (filter_eq_empty_iff.mpr fun ij _ hij => hv ?_)
    rw [← hij.2, h.untouched ij hij.1]
  have hestimate := s.lightPart.estimate_nonneg v
  omega

/-- After an eviction, as long as the array holds a key whose light counter is zero. -/
theorem distribution_of_binsKept_one_eviction :
    let hh : Hashing := ⟨1,by decide,by decide,fun _ => 0⟩
    let lh : Hashing := ⟨9,by decide,by decide,fun k => (k.bytes.getD 0 0).toUInt32⟩
    let keys := [1,2,3,4,5,6,7,8,8,8,8,8,8,8,8,8].map Key.memset
    ∃ s : ElasticSketch hh lh, insertAll hh lh keys = some s ∧
      (∃ ij, highestBitIs1 (s.slotVal ij)) ∧
        ∃ dist, s.getDistribution Real.exp (fun _ => Key.zeroStr) = some dist ∧
          ∀ x ∈ dist, 0 ≤ x := by
  intro hh lh keys
  obtain ⟨s,hrun,hflag,hsum,hbelow,hlight⟩ : ∃ s : ElasticSketch hh lh,
      insertAll hh lh keys = some s ∧ (∃ ij, highestBitIs1 (s.slotVal ij)) ∧
        s.lightPart.tmpCounters.sum = 9 ∧ (∀ ij, count (s.slotVal ij) + 1 ≠ 2^31) ∧
          s.light Key.zeroStr = 0 :=
    ⟨_,(Option.some_get (by decide +kernel)).symm,by decide +kernel,by decide +kernel,
      by decide +kernel,by decide +kernel⟩
  have hroom : s.HasRoom := by
    rw [HasRoom, hsum]
    decide
  exact ⟨s,hrun,hflag,distribution_of_binsKept s _ ⟨hroom,hbelow,fun _ _ => hlight⟩⟩

/-- The ninth packets of two flows each evict a flow of one packet. -/
def twoEvictions : List Key :=
  [1,2,3,4,5,6,7,8,8,8,8,8,8,8,8,8,8,9,9,9,9,9,9,9,9,9].map Key.memset

/-- Both flows find the one light counter at 16, which stands for at most one flow of
that size. -/
theorem distribution_fails_shared_counter :
    let h : Hashing := ⟨1,by decide,by decide,fun _ => 0⟩
    ∃ s : ElasticSketch h h, insertAll h h twoEvictions = some s ∧ ∀ buffers,
      ¬ ∃ dist, s.getDistribution Real.exp buffers = some dist ∧ ∀ x ∈ dist, 0 ≤ x := by
  intro h
  obtain ⟨s,hrun,hcounters,htaken,hput⟩ : ∃ s : ElasticSketch h h,
      insertAll h h twoEvictions = some s ∧ s.lightPart.tmpCounters = [16] ∧
        #{ij | highestBitIs1 (s.slotVal ij)} = 2 ∧
          #{ij | (mergedWith (s.slotVal ij) 16).toNat = 16} = 0 :=
    ⟨_,(Option.some_get (by decide +kernel)).symm,by decide +kernel,by decide +kernel,
      by decide +kernel⟩
  have hlight (k : Key) : s.light k = 16 := by
    have hmem : s.light k ∈ s.lightPart.tmpCounters := List.mem_ofFn.mpr ⟨h.pos k,rfl⟩
    simpa [hcounters] using hmem
  have hroom : s.HasRoom := by
    rw [HasRoom, hcounters]
    decide
  refine ⟨s,hrun,fun buffers hdist => ?_⟩
  have hcovered := (hroom.distribution_iff.mp hdist).2 16 (by norm_num)
  have hestimate := s.lightPart.mul_estimate_le 16
  rw [hcounters, List.sum_singleton] at hestimate
  simp only [takenOut, putInto, hlight, and_true, Nat.cast_ofNat] at hcovered hestimate
  rw [htaken, hput] at hcovered
  omega

end ElasticSketch
end SketchMonitor
