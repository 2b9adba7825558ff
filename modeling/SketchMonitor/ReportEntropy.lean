import SketchMonitor.ConvexTerms
import SketchMonitor.ReportTotals

/-!
# The reported entropy

The entropy sum of one thread is the sum of its light terms and of one correction
for each heavy slot. Flagged slots that share a light counter all subtract the
same term, but each correction is still bounded by the growth of the whole, as
no light counter exceeds the total.
-/

namespace SketchMonitor

open FiniteSums

/-- The entropy `makeJSON` prints. -/
def reportEntropy {R : Type*} [DivisionRing R] (log2 : ℤ → R) (tot : ℤ) (entr : R) : R :=
  if tot > 0 then -entr / tot + log2 tot else 0

/-- `log2` without rounding. -/
noncomputable def realLog2 (x : ℤ) : ℝ := Real.logb 2 x

variable {hh lh : Hashing}

theorem xlog2_realLog2 (n : ℕ) : xlog2 realLog2 n = n * Real.logb 2 n := by
  simp [xlog2, realLog2]

theorem lightEstimate_le_sum (s : ElasticSketch hh lh) (i : Fin hh.size) (j : Fin maxValidCounter) :
    lightEstimate s i j ≤ ∑ p, (s.lightPart.counters p : ℕ) := by
  unfold lightEstimate
  split_ifs
  · exact Finset.single_le_sum (f := fun p => (s.lightPart.counters p : ℕ)) (fun _ _ => Nat.zero_le _)
      (Finset.mem_univ _)
  · exact Nat.zero_le _

/-- The entropy sum of one thread lies between zero and the term of its mass. -/
theorem processData_entr_bounds (c : Client hh lh) (hc : c.sketch.Reachable)
    (hmass : c.sketch.totalMass < 2^31) :
    0 ≤ ((processData realLog2 c).map Section.entrPart).sum ∧
      ((processData realLog2 c).map Section.entrPart).sum ≤
        c.sketch.totalMass * Real.logb 2 c.sketch.totalMass := by
  set s := c.sketch
  have hf := convexTerm_mul_logb
  have hsum := processData_entr realLog2 c hc hmass
  simp only [xlog2_realLog2, ← Fintype.sum_prod_type'] at hsum
  rw [hsum]
  constructor
  · refine add_nonneg (Finset.sum_nonneg fun p _ => hf.nonneg _) (Finset.sum_nonneg fun x _ => ?_)
    exact hf.correction_nonneg _ _
  · have hlight := hf.finset_sum_le Finset.univ fun p => (s.lightPart.counters p : ℕ)
    have hheavy := hf.corrections_le Finset.univ
      (fun x : Fin hh.size × Fin maxValidCounter => count ((s.heavyPart.buckets x.1).slot x.2))
      (fun x => lightEstimate s x.1 x.2) fun x _ => lightEstimate_le_sum s x.1 x.2
    have hmass_eq : s.totalMass = ∑ p, (s.lightPart.counters p : ℕ) +
        ∑ x : Fin hh.size × Fin maxValidCounter, count ((s.heavyPart.buckets x.1).slot x.2) := by
      rw [ElasticSketch.totalMass_eq, add_comm, Fintype.sum_prod_type]
    rw [← hmass_eq] at hheavy
    linarith

def clientsMass (clients : List (Client hh lh)) : ℕ :=
  (clients.map fun c => c.sketch.totalMass).sum

theorem totalMass_le_clientsMass {clients : List (Client hh lh)} {c : Client hh lh}
    (hc : c ∈ clients) : c.sketch.totalMass ≤ clientsMass clients :=
  List.le_sum_of_mem (List.mem_map_of_mem hc)

theorem clients_tot (clients : List (Client hh lh)) (hreach : ∀ c ∈ clients, c.sketch.Reachable)
    (hmass : clientsMass clients < 2^31) :
    (clients.map fun c => ((processData realLog2 c).map Section.totPart).sum).sum =
      clientsMass clients := by
  have hclient (c) (hc : c ∈ clients) := processData_tot realLog2 c (hreach c hc)
    ((totalMass_le_clientsMass hc).trans_lt hmass)
  rw [List.map_congr_left hclient, clientsMass, Nat.cast_list_sum, List.map_map]
  rfl

theorem runTot_eq_clientsMass {clients : List (Client hh lh)}
    (hreach : ∀ c ∈ clients, c.sketch.Reachable) (hmass : clientsMass clients < 2^31)
    {l : List (Section ℝ)} (hl : Interleaving (clients.map (processData realLog2)) l) :
    runTot l = clientsMass clients := by
  have hsum := clients_tot clients hreach hmass
  rw [runTot_eq, hl.sum_map, List.map_map, Function.comp_def, hsum]
  exact toInt32_of_bounds (by omega) (by exact_mod_cast hmass)

/-- The entropy sum over any finite set of clients is bounded in the same way. -/
theorem clients_entr_bounds (clients : List (Client hh lh))
    (hreach : ∀ c ∈ clients, c.sketch.Reachable) (hmass : clientsMass clients < 2^31) :
    let entr := (clients.map fun c => ((processData realLog2 c).map Section.entrPart).sum).sum
    0 ≤ entr ∧ entr ≤ clientsMass clients * Real.logb 2 (clientsMass clients) := by
  have hclient (c) (hc : c ∈ clients) := processData_entr_bounds c (hreach c hc)
    ((totalMass_le_clientsMass hc).trans_lt hmass)
  refine ⟨List.sum_nonneg fun x hx => ?_,?_⟩
  · obtain ⟨c,hc,rfl⟩ := List.mem_map.mp hx
    exact (hclient c hc).1
  · refine (List.sum_le_sum fun c hc => (hclient c hc).2).trans ?_
    have h := convexTerm_mul_logb.list_sum_le (clients.map fun c => c.sketch.totalMass)
    rwa [List.map_map] at h

/-- An entropy sum between zero and `tot * log2 tot` gives a legal entropy. -/
theorem reportEntropy_legal {tot : ℕ} {entr : ℝ} (htot : 0 < tot) (hlo : 0 ≤ entr)
    (hhi : entr ≤ tot * Real.logb 2 tot) :
    0 ≤ reportEntropy realLog2 tot entr ∧ reportEntropy realLog2 tot entr ≤ Real.logb 2 tot := by
  have hpos : (0 : ℝ) < tot := by exact_mod_cast htot
  have hmean₀ : 0 ≤ entr / tot := by positivity
  have hmean₁ : entr / tot ≤ Real.logb 2 tot := by rwa [div_le_iff₀' hpos]
  have hif : (tot : ℤ) > 0 := by exact_mod_cast htot
  rw [reportEntropy, if_pos hif, realLog2, Int.cast_natCast, neg_div]
  exact ⟨by linarith,by linarith⟩

/-- However the aggregation threads interleave, `makeJSON` prints a legal entropy. -/
theorem entropy_legal (clients : List (Client hh lh)) (hreach : ∀ c ∈ clients, c.sketch.Reachable)
    (hmass : clientsMass clients < 2^31) (l : List (Section ℝ))
    (hl : Interleaving (clients.map (processData realLog2)) l) (htot : 0 < runTot l) :
    0 ≤ runEntr l ∧ runEntr l ≤ runTot l * Real.logb 2 (runTot l) ∧
      0 ≤ reportEntropy realLog2 (runTot l) (runEntr l) ∧
      reportEntropy realLog2 (runTot l) (runEntr l) ≤ Real.logb 2 (runTot l) := by
  have hrun := runTot_eq_clientsMass hreach hmass hl
  have hentr : runEntr l =
      (clients.map fun c => ((processData realLog2 c).map Section.entrPart).sum).sum := by
    rw [runEntr_eq, hl.sum_map, List.map_map]
    rfl
  obtain ⟨hlo,hhi⟩ := clients_entr_bounds clients hreach hmass
  rw [← hentr] at hlo hhi
  rw [hrun] at htot ⊢
  rw [Int.cast_natCast]
  exact ⟨hlo,hhi,reportEntropy_legal (by exact_mod_cast htot) hlo hhi⟩

/-- Two devices with one light counter, which two flows that have evicted others share. -/
theorem entropy_legal_two_devices :
    let h : Hashing := ⟨1,by decide,by decide,fun _ => 0⟩
    let keys := [1,2,3,4,5,6,7,8,8,8,8,8,8,8,8,8,8,9,9,9,9,9,9,9,9,9].map Key.memset
    ∃ s : ElasticSketch h h, ElasticSketch.insertAll h h keys = some s ∧
      (∃ j k, j ≠ k ∧ 0 < lightEstimate s 0 j ∧ 0 < lightEstimate s 0 k) ∧
      let clients : List (Client h h) := [⟨2,s,fun _ => Key.zeroStr⟩,⟨3,s,fun _ => Key.zeroStr⟩]
      let l := (clients.map (processData realLog2)).flatten
      0 ≤ reportEntropy realLog2 (runTot l) (runEntr l) ∧
        reportEntropy realLog2 (runTot l) (runEntr l) ≤ Real.logb 2 (runTot l) := by
  intro h keys
  obtain ⟨s,hrun,hshared,hone⟩ : ∃ s : ElasticSketch h h, ElasticSketch.insertAll h h keys = some s ∧
      (∃ j k, j ≠ k ∧ 0 < lightEstimate s 0 j ∧ 0 < lightEstimate s 0 k) ∧ s.totalMass = 24 :=
    ⟨_,(Option.some_get (by decide +kernel)).symm,by decide +kernel,by decide +kernel⟩
  refine ⟨s,hrun,hshared,?_⟩
  intro clients l
  have hclients : ∀ c ∈ clients, c.sketch.Reachable := by
    simp [clients, ElasticSketch.reachable_of_insertAll hrun]
  have htwo : clientsMass clients = 48 := by simp [clientsMass, clients, hone]
  have hmass : clientsMass clients < 2^31 := by omega
  have hl : Interleaving (clients.map (processData realLog2)) l := Interleaving.sequential _
  have htot : 0 < runTot l := by
    rw [runTot_eq_clientsMass hclients hmass hl, htwo]
    norm_num
  exact (entropy_legal clients hclients hmass l hl htot).2.2

end SketchMonitor
