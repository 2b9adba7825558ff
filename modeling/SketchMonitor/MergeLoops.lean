import SketchMonitor.Measurement
import SketchMonitor.ReportTotals

/-!
# The merge loops

Four loops correct the heavy slots by light estimates. Two of them copy the key of the
slot first. The other two look up whatever the local array holds, and so agree with
them exactly when the lookup cannot matter.
-/

namespace SketchMonitor

variable {hh lh : Hashing}

section Sections

variable {R : Type*} [Ring R] (log2 : ℤ → R)

/-- One section of `process_data` on totals of its own. -/
def addSection (t : ℤ × R) (a : Section R) : ℤ × R := (toInt32 (t.1 + a.totPart),t.2 + a.entrPart)

theorem foldl_addSection (l : List (Section R)) (t : ℤ × R) : l.foldl addSection t =
    (l.foldl (fun tot a => toInt32 (tot + a.totPart)) t.1,
      l.foldl (fun entr a => entr + a.entrPart) t.2) := by
  induction l generalizing t with
  | nil => rfl
  | cons a l ih => rw [List.foldl_cons, ih]; rfl

theorem lightSections_foldl (l : LightPart lh) (t : ℤ × R) :
    (lightSections log2 l).foldl addSection t = l.getEntropy log2 t := by
  rw [lightSections, List.foldl_map]
  rfl

theorem estimateSections_foldl (s : ElasticSketch hh lh) (ij : Fin hh.size × Fin maxValidCounter)
    (t : ℤ × R) : (estimateSections log2 s ij.1 ij.2).foldl addSection t =
      if highestBitIs1 (s.slotVal ij) ∧ s.lightPart.query (s.slotKey ij) ≠ 0 then
        (toInt32 (t.1 - s.lightPart.query (s.slotKey ij)),
          t.2 - xlog2 log2 (s.lightPart.query (s.slotKey ij))) else t := by
  have hsections : estimateSections log2 s ij.1 ij.2 =
      if highestBitIs1 (s.slotVal ij) ∧ s.lightPart.query (s.slotKey ij) ≠ 0 then
        [.addTot (-s.lightPart.query (s.slotKey ij))
          (-xlog2 log2 (s.lightPart.query (s.slotKey ij)))] else [] := rfl
  rw [hsections]
  split_ifs
  · simp only [List.foldl_cons, List.foldl_nil, addSection, Section.totPart, Section.entrPart,
      ← sub_eq_add_neg]
  · rfl

theorem valueSections_foldl (s : ElasticSketch hh lh) (ij : Fin hh.size × Fin maxValidCounter)
    (t : ℤ × R) :
    (valueSections log2 s ij.1 ij.2).foldl addSection t =
      let val := mergedWith (s.slotVal ij) (s.lightPart.query (s.slotKey ij))
      if val ≠ 0 then (toInt32 (t.1 + val.toNat),t.2 + xlog2 log2 val.toNat) else t := by
  have hval : mergedVal s ij.1 ij.2 =
      mergedWith (s.slotVal ij) (s.lightPart.query (s.slotKey ij)) := rfl
  simp only [valueSections, hval]
  split_ifs
  · simp only [List.foldl_cons, List.foldl_nil, addSection, Section.totPart, Section.entrPart,
      toInt32_toInt32, add_zero]
  · rfl

/-- What `process_data` adds for a slot is what the entropy loop adds with the slot's own
key. -/
theorem slotSections_foldl (s : ElasticSketch hh lh) (ij : Fin hh.size × Fin maxValidCounter)
    (t : ℤ × R) : (slotSections log2 s ij.1 ij.2).foldl addSection t =
      ElasticSketch.mergeEntropy log2 (s.slotVal ij) (s.lightPart.query (s.slotKey ij)) t := by
  rw [slotSections, List.foldl_append, estimateSections_foldl, valueSections_foldl]
  rfl

theorem heavySections_foldl (s : ElasticSketch hh lh) (t : ℤ × R) :
    (heavySections log2 s).foldl addSection t = (ElasticSketch.slots hh).foldl (fun t ij =>
      ElasticSketch.mergeEntropy log2 (s.slotVal ij) (s.lightPart.query (s.slotKey ij)) t) t := by
  simp only [heavySections, ElasticSketch.slots, List.foldl_flatMap, List.foldl_map,
    ← slotSections_foldl]

/-- With the slots' own keys in its array, `get_entropy` computes what `process_data` adds. -/
theorem entropyTotals_slotKey (s : ElasticSketch hh lh) (octet : Fin 256)
    (array : ElasticSketch.Buffers hh) : s.entropyTotals log2 s.slotKey =
      (runTot (processData log2 ⟨octet,s,array⟩),
        runEntr (processData log2 ⟨octet,s,array⟩)) := by
  have hstart (d : Option (List ℤ)) (card : Option ℤ) :
      addSection (addSection ((0,0) : ℤ × R) (.storeDist (octet - 1) d)) (.addCardinality card) =
        (0,0) := by
    simp [addSection, toInt32]
  have hrun := foldl_addSection (processData log2 ⟨octet,s,array⟩) (0,0)
  rw [processData, List.foldl_cons, List.foldl_cons, List.foldl_append] at hrun
  rw [Client.clientId, hstart] at hrun
  rw [ElasticSketch.entropyTotals, ← lightSections_foldl, ← heavySections_foldl]
  exact hrun

end Sections

namespace ElasticSketch

/-- The array holds keys whose light estimates are those of the flagged slots. -/
def LooksUpOwn (buffers : Buffers hh) (s : ElasticSketch hh lh) : Prop :=
  ∀ ij, highestBitIs1 (s.slotVal ij) →
    s.lightPart.query (buffers ij) = s.lightPart.query (s.slotKey ij)

/-- Without the flag the estimate plays no role. -/
theorem LooksUpOwn.foldl_congr {buffers : Buffers hh} {s : ElasticSketch hh lh}
    (h : s.LooksUpOwn buffers) {A : Type*} (f : UInt32 → ℤ → A)
    (hf : ∀ v ex ex', highestBitIs1 v = false → f v ex = f v ex') (ij) :
    f (s.slotVal ij) (s.lightPart.query (buffers ij)) =
      f (s.slotVal ij) (s.lightPart.query (s.slotKey ij)) := by
  by_cases hflag : highestBitIs1 (s.slotVal ij) = true
  · rw [h ij hflag]
  · exact hf _ _ _ (by simpa using hflag)

theorem mergedWith_of_unflagged {v : UInt32} (h : highestBitIs1 v = false) (ex : ℤ) :
    mergedWith v ex = getCounterVal v := by simp [mergedWith, h]

theorem LooksUpOwn.entropyTotals_eq {buffers : Buffers hh} {s : ElasticSketch hh lh}
    (h : s.LooksUpOwn buffers) {R : Type*} [Ring R] (log2 : ℤ → R) :
    s.entropyTotals log2 buffers = s.entropyTotals log2 s.slotKey := by
  have hslot := h.foldl_congr (mergeEntropy log2) fun v ex ex' hv => by
    funext t
    simp [mergeEntropy, mergedWith_of_unflagged hv, hv]
  simp only [entropyTotals, hslot]

theorem LooksUpOwn.getDistribution_eq {buffers : Buffers hh} {s : ElasticSketch hh lh}
    (h : s.LooksUpOwn buffers) {K : Type*} [Field K] [LinearOrder K] [FloorRing K] (exp : K → K) :
    s.getDistribution exp buffers = s.getDistribution exp s.slotKey := by
  have hslot := h.foldl_congr mergeDist fun v ex ex' hv => by
    funext dist
    simp [mergeDist, takeOut, mergedWith_of_unflagged hv, hv]
  simp only [getDistribution, hslot]

/-- Both loops merge what they should, whatever their arrays hold. -/
structure MergesOwnKeys (s : ElasticSketch hh lh) : Prop where
  own : ∀ buffers, s.LooksUpOwn buffers
  entropy : ∀ (buffers : Buffers hh) (R : Type) [Ring R] (log2 : ℤ → R) (octet : Fin 256)
    (array : Buffers hh), s.entropyTotals log2 buffers =
      (runTot (processData log2 ⟨octet,s,array⟩),
        runEntr (processData log2 ⟨octet,s,array⟩))
  distribution : ∀ buffers buffers' : Buffers hh,
    s.getDistribution Real.exp buffers = s.getDistribution Real.exp buffers'

theorem query_eq_light (s : ElasticSketch hh lh) (k : Key) : s.lightPart.query k = s.light k := rfl

/-- The lookup cannot matter where no slot is flagged or all keys have one estimate. -/
theorem looksUpOwn_iff (s : ElasticSketch hh lh) : (∀ buffers, s.LooksUpOwn buffers) ↔
    (∀ ij, highestBitIs1 (s.slotVal ij) = false) ∨ ∀ k k', s.light k = s.light k' := by
  constructor
  · intro h
    by_cases hflag : ∀ ij, highestBitIs1 (s.slotVal ij) = false
    · exact Or.inl hflag
    · push Not at hflag
      obtain ⟨ij,hij⟩ := hflag
      have hown (k : Key) : s.lightPart.query k = s.lightPart.query (s.slotKey ij) :=
        h (fun _ => k) ij (by simpa using hij)
      exact Or.inr fun k k' => Int.ofNat.inj ((hown k).trans (hown k').symm)
  · rintro (h | h) buffers ij hflag
    · exact absurd hflag (by simp [h ij])
    · rw [query_eq_light, query_eq_light, h]

/-- In every reachable state `get_cardinality` looks up the slots' own keys, and the
other two loops agree with it and with `process_data` exactly when the lookup of the
flagged slots cannot matter. -/
theorem mergesOwnKeys_iff (s : ElasticSketch hh lh) (hs : s.Reachable) :
    (∀ ij, s.lightPart.query (s.slotKey ij).strncpy = s.lightPart.query (s.slotKey ij)) ∧
    (s.MergesOwnKeys ↔
      (∀ ij, highestBitIs1 (s.slotVal ij) = false) ∨ ∀ k k', s.light k = s.light k') := by
  refine ⟨fun ij => congrArg _ (hs.storedCopied ij.1 ij.2),fun h => s.looksUpOwn_iff.mp h.own,
    fun h => ?_⟩
  have hown := s.looksUpOwn_iff.mpr h
  refine ⟨hown,fun buffers R _ log2 octet array => ?_,fun buffers buffers' => ?_⟩
  · rw [(hown buffers).entropyTotals_eq, entropyTotals_slotKey]
  · rw [(hown buffers).getDistribution_eq, (hown buffers').getDistribution_eq]

/-- Seven flows of one packet fill a bucket and the ninth packet of an eighth flow evicts
one of them. -/
def oneEviction : List Key := [1,2,3,4,5,6,7,8,8,8,8,8,8,8,8,8].map Key.memset

/-- With a single light counter every lookup is the same. -/
theorem mergesOwnKeys_iff_one_counter :
    let h : Hashing := ⟨1,by decide,by decide,fun _ => 0⟩
    ∃ s : ElasticSketch h h, insertAll h h oneEviction = some s ∧ s.MergesOwnKeys := by
  intro h
  obtain ⟨s,hrun⟩ : ∃ s, insertAll h h oneEviction = some s :=
    Option.isSome_iff_exists.mp (by decide +kernel)
  have hpos (k k' : Key) : h.pos k = h.pos k' := (Fin.subsingleton_one).elim _ _
  refine ⟨s,hrun,(mergesOwnKeys_iff s (reachable_of_insertAll hrun)).2.mpr (Or.inr fun k k' => ?_)⟩
  rw [light, light, hpos k k']

/-- The eight packets before the eviction are in one light counter, the evicted flow in
the other. -/
theorem mergesOwnKeys_fails_two_counters :
    let hh : Hashing := ⟨1,by decide,by decide,fun _ => 0⟩
    let lh : Hashing := ⟨2,by decide,by decide,fun k => (k.bytes.getD 0 0).toUInt32⟩
    ∃ s : ElasticSketch hh lh, insertAll hh lh oneEviction = some s ∧ ¬ s.MergesOwnKeys := by
  intro hh lh
  obtain ⟨s,hrun,hflag,hlookup⟩ : ∃ s : ElasticSketch hh lh, insertAll hh lh oneEviction = some s ∧
      highestBitIs1 (s.slotVal (⟨0,hh.size_pos⟩,0)) = true ∧
        s.lightPart.query (Key.memset 1) ≠ s.lightPart.query (s.slotKey (⟨0,hh.size_pos⟩,0)) :=
    ⟨_,(Option.some_get (by decide +kernel)).symm,by decide +kernel,by decide +kernel⟩
  exact ⟨s,hrun,fun h => hlookup (h.own (fun _ => Key.memset 1) _ hflag)⟩

end ElasticSketch
end SketchMonitor
