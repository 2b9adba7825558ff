import SketchMonitor.ProcessData

/-!
# What one thread adds to the totals

The sections of a thread add the light counters once, through the histogram, and
each heavy slot once; the light estimate subtracted for a flagged slot comes back
inside its merged value. The entropy terms follow the same pattern.
-/

namespace SketchMonitor

open FiniteSums

variable {hh lh : Hashing}

namespace ElasticSketch

/-- Reached from the empty sketch by inserts of any keys with any weights. -/
def Reachable (s : ElasticSketch hh lh) : Prop :=
  ∃ ops : List (Key × ℤ), Runs.run (fun s p => s.insert p.1 p.2) (clear hh lh) ops = some s

theorem handOff_histogramOk {l l' : LightPart lh} {key : Key} {r : InsertResult}
    (hl : l.HistogramOk) (h : handOff l key r = some l') : l'.HistogramOk := by
  cases r with
  | kept =>
    obtain rfl : l = l' := Option.some.inj h
    exact hl
  | swapped swapKey swapVal =>
    simp only [handOff] at h
    split_ifs at h with hflag
    · exact hl.insert h
    · rw [← Option.some.inj h]
      exact hl.swapInsert _ _
  | rejected =>
    simp only [handOff] at h
    exact hl.insert h

theorem Reachable.histogramOk {s : ElasticSketch hh lh} (h : Reachable s) :
    s.lightPart.HistogramOk := by
  obtain ⟨ops,hrun⟩ := h
  refine Runs.run_preserves (fun _ s => s.lightPart.HistogramOk)
    (LightPart.HistogramOk.clear lh) ?_ ops s hrun
  intro ops p s t hs hstep
  obtain ⟨l,hl,rfl⟩ := Option.map_eq_some_iff.mp hstep
  exact handOff_histogramOk hs hl

theorem Reachable.storedCopied {s : ElasticSketch hh lh} (h : Reachable s) : s.StoredCopied := by
  obtain ⟨ops,hrun⟩ := h
  exact Runs.run_preserves (fun _ s => s.StoredCopied) (RunOk.clear hh lh).copied
    (fun _ _ _ _ hs hstep => hs.insert hstep) ops s hrun

theorem reachable_of_insertAll {keys : List Key} {s : ElasticSketch hh lh}
    (h : insertAll hh lh keys = some s) : Reachable s :=
  ⟨keys.map (·,1),by rw [← h, insertAll, Runs.run, Runs.run, List.foldlM_map]⟩

theorem totalMass_eq (s : ElasticSketch hh lh) :
    s.totalMass = ∑ b, ∑ i, count ((s.heavyPart.buckets b).slot i) +
      ∑ p, (s.lightPart.counters p : ℕ) := by
  simp [totalMass, mass, heavyMass, bucketMass, slotMass, lightMass]

theorem light_le_totalMass (s : ElasticSketch hh lh) :
    ∑ p, (s.lightPart.counters p : ℕ) ≤ s.totalMass := by
  rw [totalMass_eq]
  exact Nat.le_add_left _ _

end ElasticSketch

/-- The light estimate that process_data merges into a slot. -/
def lightEstimate (s : ElasticSketch hh lh) (i : Fin hh.size) (j : Fin maxValidCounter) : ℕ :=
  if highestBitIs1 ((s.heavyPart.buckets i).slot j) then s.light ((s.heavyPart.buckets i).key j) else 0

theorem lightEstimate_le (s : ElasticSketch hh lh) (i : Fin hh.size) (j : Fin maxValidCounter) :
    count ((s.heavyPart.buckets i).slot j) + lightEstimate s i j ≤ s.totalMass := by
  have h := s.count_add_counter_le i j (lh.pos ((s.heavyPart.buckets i).key j))
  unfold lightEstimate ElasticSketch.light
  split_ifs <;> omega

theorem mergedVal_toNat (s : ElasticSketch hh lh) (i : Fin hh.size) (j : Fin maxValidCounter)
    (hmass : s.totalMass < 2^31) :
    (mergedVal s i j).toNat = count ((s.heavyPart.buckets i).slot j) + lightEstimate s i j := by
  have hle := lightEstimate_le s i j
  refine (count_merge ((s.heavyPart.buckets i).slot j)
    (s.light ((s.heavyPart.buckets i).key j))).trans ?_
  unfold lightEstimate at *
  split_ifs at hle ⊢ with hflag
  · exact Nat.mod_eq_of_lt (hle.trans_lt hmass)
  · rfl

section Sums

variable {R : Type*} [Ring R] (log2 : ℤ → R)

@[simp] theorem xlog2_zero : xlog2 log2 0 = 0 := by simp [xlog2]

/-- A flagged slot subtracts its light estimate; for an unflagged one that is zero. -/
theorem estimateSections_sum (s : ElasticSketch hh lh) (i : Fin hh.size) (j : Fin maxValidCounter) :
    ((estimateSections log2 s i j).map Section.totPart).sum = -(lightEstimate s i j : ℤ) ∧
      ((estimateSections log2 s i j).map Section.entrPart).sum =
        -xlog2 log2 (lightEstimate s i j) := by
  have hquery : s.lightPart.query ((s.heavyPart.buckets i).key j) =
      s.light ((s.heavyPart.buckets i).key j) := rfl
  simp only [estimateSections, lightEstimate, hquery]
  by_cases hflag : highestBitIs1 ((s.heavyPart.buckets i).slot j) = true
  · by_cases hex : s.light ((s.heavyPart.buckets i).key j) = 0 <;>
      simp [hflag, hex, Section.totPart, Section.entrPart]
  · simp [hflag]

theorem valueSections_sum (s : ElasticSketch hh lh) (i : Fin hh.size) (j : Fin maxValidCounter) :
    ((valueSections log2 s i j).map Section.totPart).sum = (mergedVal s i j).toNat ∧
      ((valueSections log2 s i j).map Section.entrPart).sum =
        xlog2 log2 (mergedVal s i j).toNat := by
  by_cases hval : mergedVal s i j = 0 <;>
    simp [valueSections, hval, Section.totPart, Section.entrPart]

/-- A slot contributes its own count to the total, merged or not. -/
theorem slotSections_tot (s : ElasticSketch hh lh) (i : Fin hh.size) (j : Fin maxValidCounter)
    (hmass : s.totalMass < 2^31) :
    ((slotSections log2 s i j).map Section.totPart).sum = count ((s.heavyPart.buckets i).slot j) := by
  have hval := mergedVal_toNat s i j hmass
  rw [slotSections, List.map_append, List.sum_append, (estimateSections_sum log2 s i j).1,
    (valueSections_sum log2 s i j).1]
  omega

/-- Its entropy term is that of the merged value, less that of the estimate. -/
theorem slotSections_entr (s : ElasticSketch hh lh) (i : Fin hh.size) (j : Fin maxValidCounter)
    (hmass : s.totalMass < 2^31) :
    ((slotSections log2 s i j).map Section.entrPart).sum =
      xlog2 log2 (count ((s.heavyPart.buckets i).slot j) + lightEstimate s i j : ℕ) -
        xlog2 log2 (lightEstimate s i j) := by
  rw [slotSections, List.map_append, List.sum_append, (estimateSections_sum log2 s i j).2,
    (valueSections_sum log2 s i j).2, mergedVal_toNat s i j hmass, neg_add_eq_sub]

/-- No product of a bin and its value leaves the range of `int`. -/
theorem lightSections_eq {l : LightPart lh} (hl : l.HistogramOk)
    (hsmall : ∑ p, (l.counters p : ℕ) < 2^31) :
    lightSections log2 l = (List.finRange 255).map fun i =>
      .addTot (l.miceDist i.succ * (i.succ : ℕ))
        ((l.miceDist i.succ * (i.succ : ℕ) : ℤ) * log2 (i.succ : ℕ)) := by
  refine List.map_congr_left fun i _ => ?_
  have hle := valueCount_mul_le_sum l.counters (fun v => (v : ℕ)) i.succ
  have hbin : l.miceDist i.succ * (i.succ : ℕ) =
      ((valueCount l.counters i.succ * (i.succ : Fin 256) : ℕ) : ℤ) := by
    rw [hl.nonzero _ (Fin.succ_ne_zero i)]
    push_cast
    rfl
  have hint : toInt32 (l.miceDist i.succ * (i.succ : ℕ)) = l.miceDist i.succ * (i.succ : ℕ) := by
    rw [hbin]
    exact toInt32_of_bounds (by omega) (by omega)
  simp only [hint]

/-- The histogram loop adds an entry-wise sum over the counters. -/
theorem lightSections_tot {l : LightPart lh} (hl : l.HistogramOk)
    (hsmall : ∑ p, (l.counters p : ℕ) < 2^31) :
    ((lightSections log2 l).map Section.totPart).sum = ∑ p, ((l.counters p : ℕ) : ℤ) := by
  have hsum := hl.sum_eq (fun v => ((v : ℕ) : ℤ)) rfl
  rw [← hsum, Fin.sum_univ_succ, lightSections_eq log2 hl hsmall]
  simp [Function.comp_def, Section.totPart, Fin.sum_univ_def]

theorem lightSections_entr {l : LightPart lh} (hl : l.HistogramOk)
    (hsmall : ∑ p, (l.counters p : ℕ) < 2^31) :
    ((lightSections log2 l).map Section.entrPart).sum = ∑ p, xlog2 log2 (l.counters p : ℕ) := by
  have hsum := hl.sum_eq (fun v => xlog2 log2 (v : ℕ)) (by simp)
  rw [← hsum, Fin.sum_univ_succ, lightSections_eq log2 hl hsmall]
  simp [Function.comp_def, Section.entrPart, Fin.sum_univ_def, xlog2, mul_assoc]

/-- What one thread adds to `tot` is the mass of its sketch. -/
theorem processData_tot (c : Client hh lh) (hc : c.sketch.Reachable)
    (hmass : c.sketch.totalMass < 2^31) :
    ((processData log2 c).map Section.totPart).sum = c.sketch.totalMass := by
  have hlight := lightSections_tot log2 hc.histogramOk (c.sketch.light_le_totalMass.trans_lt hmass)
  simp only [processData, List.map_cons, List.map_append, List.sum_cons, List.sum_append, hlight,
    heavySections, sum_map_flatMap_finRange, slotSections_tot log2 c.sketch _ _ hmass]
  rw [ElasticSketch.totalMass_eq]
  push_cast
  simp [Section.totPart]
  ring

theorem processData_entr (c : Client hh lh) (hc : c.sketch.Reachable)
    (hmass : c.sketch.totalMass < 2^31) :
    ((processData log2 c).map Section.entrPart).sum =
      ∑ p, xlog2 log2 (c.sketch.lightPart.counters p : ℕ) +
        ∑ i, ∑ j, (xlog2 log2 (count ((c.sketch.heavyPart.buckets i).slot j) +
          lightEstimate c.sketch i j : ℕ) - xlog2 log2 (lightEstimate c.sketch i j)) := by
  have hlight := lightSections_entr log2 hc.histogramOk (c.sketch.light_le_totalMass.trans_lt hmass)
  simp only [processData, List.map_cons, List.map_append, List.sum_cons, List.sum_append, hlight,
    heavySections, sum_map_flatMap_finRange, slotSections_entr log2 c.sketch _ _ hmass]
  simp [Section.entrPart]

end Sums

/-- The mass of a run is at most its number of packets, and it is exactly what a
thread adds to `tot`. -/
theorem reported_total_is_mass (hh lh : Hashing) (keys : List Key)
    (hlen : keys.length < 2^31 - 256) :
    ∃ s : ElasticSketch hh lh, ElasticSketch.insertAll hh lh keys = some s ∧
      (let held := ∑ b, ∑ i, count ((s.heavyPart.buckets b).slot i) +
        ∑ p, (s.lightPart.counters p : ℕ)
      held ≤ keys.length ∧
        ∀ (R : Type) [Ring R] (log2 : ℤ → R) (octet : Fin 256) (buffers : ElasticSketch.Buffers hh),
          ((processData log2 ⟨octet,s,buffers⟩).map Section.totPart).sum = held ∧
            runTot (processData log2 ⟨octet,s,buffers⟩) = held) := by
  obtain ⟨s,hrun,hok,-⟩ := @ElasticSketch.mass_le_sum hh lh (fun _ => 1) keys (by omega)
    fun _ _ => rfl
  refine ⟨s,hrun,?_⟩
  rw [← ElasticSketch.totalMass_eq]
  have hmass : s.totalMass < 2^31 := hok.mass_le.trans_lt (by omega)
  refine ⟨hok.mass_le,fun R _ log2 octet buffers => ?_⟩
  have htot := processData_tot log2 ⟨octet,s,buffers⟩
    (ElasticSketch.reachable_of_insertAll hrun) hmass
  refine ⟨htot,?_⟩
  rw [runTot_eq, htot]
  exact toInt32_of_bounds (by omega) (by exact_mod_cast hmass)

theorem reported_total_is_mass_three_packets :
    ∃ s : ElasticSketch ⟨2,by decide,by decide,fun _ => 1⟩ ⟨3,by decide,by decide,fun _ => 2⟩,
      ElasticSketch.insertAll _ _ [Key.memset 7,Key.zeroStr,Key.memset 7] = some s ∧
      (let held := ∑ b, ∑ i, count ((s.heavyPart.buckets b).slot i) +
        ∑ p, (s.lightPart.counters p : ℕ)
      held ≤ 3 ∧
        ∀ (R : Type) [Ring R] (log2 : ℤ → R) (octet : Fin 256) (buffers : ElasticSketch.Buffers _),
          ((processData log2 ⟨octet,s,buffers⟩).map Section.totPart).sum = held ∧
            runTot (processData log2 ⟨octet,s,buffers⟩) = held) :=
  reported_total_is_mass _ _ [Key.memset 7,Key.zeroStr,Key.memset 7] (by decide)

end SketchMonitor
