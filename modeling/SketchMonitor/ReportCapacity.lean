import SketchMonitor.Aggregation
import SketchMonitor.BucketIsolation
import SketchMonitor.Report

/-!
# What a report can hold

The length of a report is a matter of the registered clients: one entry for each
slot with a nonzero merged value, one array for each id, and the totals, which do not
depend on how the threads interleave. Only where clients share an id the order
decides, as the last distribution stays. The longest report comes from running the clients by
the length of their distributions.
-/

namespace SketchMonitor

open ElasticSketch

variable {hh lh : Hashing}

/-- The entries of one sketch. -/
def slotEntries (s : ElasticSketch hh lh) : List (FiveTuple × PktDat) :=
  ((slots hh).filter fun ij => mergedVal s ij.1 ij.2 ≠ 0).map fun ij =>
    (FiveTuple.ofKey (s.slotKey ij),⟨mergedVal s ij.1 ij.2,highestBitIs1 (s.slotVal ij)⟩)

/-- The entries of all clients. -/
def clientEntries (clients : List (Client hh lh)) : List (FiveTuple × PktDat) :=
  clients.flatMap fun c => slotEntries c.sketch

/-- The clients that store in a slot of `dist`. -/
def storingAt (clients : List (Client hh lh)) (n : ℕ) : List (Client hh lh) :=
  clients.filter fun c => c.clientId = (n+1 : ℕ)

/-- The characters of the array that a client stores. -/
noncomputable def Client.arrayLength (c : Client hh lh) : ℕ := tmpLength (c.tmpDist.getD [])

/-- The longest array that a slot can hold; a slot that nobody stores in holds an empty one. -/
noncomputable def slotLength (clients : List (Client hh lh)) (n : ℕ) : ℕ :=
  ((storingAt clients n).map Client.arrayLength).foldr max 2

/-- The size that the largest id asks for. -/
def topClient (clients : List (Client hh lh)) : ℕ :=
  (clients.map fun c => c.clientId.toNat).foldr max 0

theorem foldr_max_le_iff (l : List ℕ) (base m : ℕ) :
    l.foldr max base ≤ m ↔ base ≤ m ∧ ∀ x ∈ l, x ≤ m := by
  induction l with
  | nil => simp
  | cons x l ih =>
    rw [List.foldr_cons, max_le_iff, ih, List.forall_mem_cons]
    exact and_left_comm

section Totals

variable {R : Type*} [DivisionRing R] (log2 : ℤ → R)

/-- `cardinality`, `tot` and `entr` after all threads. -/
noncomputable def reportedCardinality (clients : List (Client hh lh)) : ℤ :=
  toInt32 (clients.map fun c => c.cardinality.getD 0).sum

noncomputable def reportedTot (clients : List (Client hh lh)) : ℤ :=
  toInt32 (clients.map fun c => ((processData log2 c).map Section.totPart).sum).sum

noncomputable def reportedEntr (clients : List (Client hh lh)) : R :=
  (clients.map fun c => ((processData log2 c).map Section.entrPart).sum).sum

/-- The characters of the longest report. -/
noncomputable def longestJson (p : Printing R) (clients : List (Client hh lh)) : ℕ :=
  jsonLength log2 p (reportedCardinality clients) (reportedTot log2 clients)
    (reportedEntr log2 clients) (heavyLength (clientEntries clients))
    (distTextLength (topClient clients) (slotLength clients))

end Totals

section Dist

variable {R : Type*}

/-- A slot is empty or holds what a section stored there. -/
theorem lastStored_cases (l : List (Section R)) (n : ℕ) :
    lastStored l n = [] ∨ .storeDist (n+1 : ℕ) (some (lastStored l n)) ∈ l := by
  induction l using List.reverseRecOn with
  | nil => exact Or.inl rfl
  | append_singleton l a ih =>
    have hold := ih.imp_right fun hmem => List.mem_append_left [a] hmem
    rw [lastStored, List.foldl_append, List.foldl_cons, List.foldl_nil, ← lastStored]
    split
    · next id d =>
      split_ifs with hid
      · rw [hid]
        exact Or.inr (List.mem_append_right _ (List.mem_singleton_self _))
      · exact hold
    · exact hold

theorem topId_le_iff (l : List (Section R)) (m : ℕ) :
    topId l ≤ m ↔ ∀ id d, .storeDist id d ∈ l → id.toNat ≤ m := by
  induction l using List.reverseRecOn with
  | nil => simp [topId]
  | append_singleton l a ih =>
    rw [topId, List.foldl_append, List.foldl_cons, List.foldl_nil, ← topId]
    cases a with
    | storeDist id d =>
      simp only [max_le_iff, ih, List.mem_append, List.mem_singleton, Section.storeDist.injEq]
      constructor
      · rintro ⟨hold,hnew⟩ id' d' (hmem | ⟨rfl,-⟩)
        · exact hold id' d' hmem
        · exact hnew
      · intro h
        exact ⟨fun id' d' hmem => h id' d' (Or.inl hmem),h id d (Or.inr ⟨rfl,rfl⟩)⟩
    | addCardinality c => simpa using ih
    | addTot t e => simpa using ih
    | pushHeavy q p => simpa using ih

variable [Ring R] (log2 : ℤ → R) {clients : List (Client hh lh)} {l : List (Section R)}

theorem topId_eq_topClient (hl : Interleaving (clients.map (processData log2)) l) :
    topId l = topClient clients := by
  refine eq_of_forall_ge_iff fun m => ?_
  rw [topId_le_iff, topClient, foldr_max_le_iff]
  simp only [storeDist_mem_interleaving log2 hl, List.mem_map, Nat.zero_le, true_and]
  constructor
  · rintro h - ⟨c,hc,rfl⟩
    exact h c.clientId c.tmpDist ⟨c,hc,rfl,rfl⟩
  · rintro h id d ⟨c,hc,rfl,-⟩
    exact h _ ⟨c,hc,rfl⟩

theorem mem_storingAt {c : Client hh lh} {n : ℕ} :
    c ∈ storingAt clients n ↔ c ∈ clients ∧ c.clientId = (n+1 : ℕ) := by
  simp [storingAt]

theorem slotLength_le_iff {n m : ℕ} : slotLength clients n ≤ m ↔
    2 ≤ m ∧ ∀ c ∈ clients, c.clientId = (n+1 : ℕ) → c.arrayLength ≤ m := by
  simp only [slotLength, foldr_max_le_iff, List.mem_map, mem_storingAt]
  refine and_congr_right fun _ => ⟨fun h c hc hid => h _ ⟨c,⟨hc,hid⟩,rfl⟩,?_⟩
  rintro h - ⟨c,⟨hc,hid⟩,rfl⟩
  exact h c hc hid

theorem slotLength_perm {order : List (Client hh lh)} (hperm : order.Perm clients) (n : ℕ) :
    slotLength order n = slotLength clients n :=
  eq_of_forall_ge_iff fun m => by simp only [slotLength_le_iff, hperm.mem_iff]

theorem tmpLength_nil : tmpLength [] = 2 := rfl

theorem tmpLength_lastStored_le (hl : Interleaving (clients.map (processData log2)) l) (n : ℕ) :
    tmpLength (lastStored l n) ≤ slotLength clients n := by
  obtain ⟨htwo,hle⟩ := slotLength_le_iff.mp (le_refl (slotLength clients n))
  rcases lastStored_cases l n with hnil | hmem
  · rwa [hnil, tmpLength_nil]
  · obtain ⟨c,hc,hid,hdist⟩ := (storeDist_mem_interleaving log2 hl).mp hmem
    have harray := hle c hc hid.symm
    rwa [Client.arrayLength, ← hdist, Option.getD_some] at harray

omit [Ring R] in
theorem lastStored_append {l' : List (Section R)} (h : ∀ id d, .storeDist id d ∉ l') (n : ℕ) :
    lastStored (l ++ l') n = lastStored l n := by
  rw [lastStored, List.foldl_append, ← lastStored]
  induction l' with
  | nil => rfl
  | cons a l' ih =>
    have hrest := ih fun id d hmem => h id d (List.mem_cons_of_mem a hmem)
    cases a with
    | storeDist id d => exact absurd List.mem_cons_self (h id d)
    | addCardinality c => exact hrest
    | addTot t e => exact hrest
    | pushHeavy q p => exact hrest

/-- A thread stores once, at its start. -/
theorem lastStored_append_processData (c : Client hh lh) (hdist : c.tmpDist.isSome) (n : ℕ) :
    lastStored (l ++ processData log2 c) n =
      if c.clientId = (n+1 : ℕ) then c.tmpDist.getD [] else lastStored l n := by
  have hsplit : l ++ processData log2 c = (l ++ [.storeDist c.clientId c.tmpDist]) ++
      ([.addCardinality c.cardinality] ++
        (lightSections log2 c.sketch.lightPart ++ heavySections log2 c.sketch)) := by
    simp [processData]
  obtain ⟨d,hd⟩ := Option.isSome_iff_exists.mp hdist
  rw [hsplit, lastStored_append, hd, Option.getD_some, lastStored, List.foldl_append,
    List.foldl_cons, List.foldl_nil, ← lastStored]
  intro id d hmem
  rcases List.mem_append.mp hmem with hmem | hmem
  · cases List.mem_singleton.mp hmem
  · exact storeDist_notMem_rest log2 c.sketch id d hmem

/-- The clients one after the other, by the length of their arrays: every slot ends with its
longest. -/
theorem tmpLength_lastStored_sorted (order : List (Client hh lh))
    (hsorted : order.Pairwise fun c d => c.arrayLength ≤ d.arrayLength)
    (hdist : ∀ c ∈ order, c.tmpDist.isSome) (n : ℕ) :
    tmpLength (lastStored (order.map (processData log2)).flatten n) = slotLength order n := by
  induction order using List.reverseRecOn with
  | nil =>
    have hempty : slotLength ([] : List (Client hh lh)) n = 2 := by simp [slotLength, storingAt]
    rw [hempty, List.map_nil, List.flatten_nil, lastStored, List.foldl_nil, tmpLength_nil]
  | append_singleton order c ih =>
    obtain ⟨hbefore,-,hlast⟩ := List.pairwise_append.mp hsorted
    have hrest := ih hbefore fun d hd => hdist d (List.mem_append_left _ hd)
    rw [List.map_append, List.flatten_append, List.map_singleton, List.flatten_singleton,
      lastStored_append_processData log2 c (hdist c (by simp)) n]
    refine eq_of_forall_ge_iff fun m => ?_
    rw [slotLength_le_iff]
    simp only [List.forall_mem_append, List.forall_mem_singleton]
    split_ifs with hid
    · change c.arrayLength ≤ m ↔ _
      constructor
      · intro hm
        have htwo : 2 ≤ c.arrayLength := by
          rw [Client.arrayLength, tmpLength, add_assoc]
          exact Nat.le_add_right _ _
        exact ⟨htwo.trans hm,fun d hd _ => (hlast d hd c (by simp)).trans hm,fun _ => hm⟩
      · intro h
        exact h.2.2 hid
    · rw [hrest, slotLength_le_iff]
      exact and_congr_right fun _ => ⟨fun h => ⟨h,fun hc => absurd hc hid⟩,fun h => h.1⟩

end Dist

section Heavy

variable {R : Type*} [Ring R] (log2 : ℤ → R)

theorem heavyEntries_eq (c : Client hh lh) : heavyEntries log2 c = slotEntries c.sketch := by
  have hslot (i j) : (slotSections log2 c.sketch i j).filterMap Section.heavyEntry =
      if mergedVal c.sketch i j ≠ 0 then [(FiveTuple.ofKey (c.sketch.slotKey (i,j)),
        ⟨mergedVal c.sketch i j,highestBitIs1 (c.sketch.slotVal (i,j))⟩)] else [] := by
    simp only [slotSections, estimateSections, valueSections]
    split_ifs <;> rfl
  have hlight : (lightSections log2 c.sketch.lightPart).filterMap Section.heavyEntry = [] := by
    simp [lightSections, List.filterMap_eq_nil_iff]
  rw [heavyEntries, processData, List.filterMap_cons_none rfl, List.filterMap_cons_none rfl,
    List.filterMap_append, hlight, List.nil_append, heavySections, List.filterMap_flatMap,
    slotEntries, FiniteSums.map_filter_eq_flatMap, slots, List.flatMap_assoc]
  refine List.flatMap_congr fun i _ => ?_
  rw [List.filterMap_flatMap, List.flatMap_map]
  refine List.flatMap_congr fun j _ => ?_
  simp only [hslot, decide_eq_true_eq]

theorem reached_sublist (entries : List (FiveTuple × PktDat)) : (reached entries).Sublist entries :=
  List.take_sublist _ _

theorem heavyLength_le {entries all : List (FiveTuple × PktDat)} (h : entries.Subperm all) :
    heavyLength entries ≤ heavyLength all := by
  obtain ⟨order,hperm,hsub⟩ := h
  have hsum := (hsub.map entryLength).sum_le_sum fun x _ => Nat.zero_le x
  have hlen := hsub.length_le
  rw [(hperm.map entryLength).sum_eq] at hsum
  rw [hperm.length_eq] at hlen
  unfold heavyLength
  omega

theorem countsOk_clientEntries (clients : List (Client hh lh)) :
    CountsOk (clientEntries clients) := by
  intro entry hentry
  obtain ⟨c,-,hentry⟩ := List.mem_flatMap.mp hentry
  obtain ⟨ij,-,rfl⟩ := List.mem_map.mp hentry
  exact count_lt _

end Heavy

theorem distTextLength_le {n m : ℕ} (h : n ≤ m) {f g : ℕ → ℕ} (hle : ∀ i < n, f i ≤ g i) :
    distTextLength n f ≤ distTextLength m g := by
  have hsum : ((List.range n).map f).sum ≤ ((List.range m).map g).sum := by
    rw [FiniteSums.sum_map_range, FiniteSums.sum_map_range]
    exact (Finset.sum_le_sum fun i hi => hle i (Finset.mem_range.mp hi)).trans
      (Finset.sum_le_sum_of_subset (Finset.range_subset_range.mpr h))
  unfold distTextLength
  omega

theorem width_le_width {n m : ℕ} (h : n ≤ m) : width n ≤ width m := by
  have hlog := @Nat.log_mono_right 10 _ _ h
  have hnonneg (k : ℕ) : ¬ (k : ℤ) < 0 := by omega
  rw [width, width, if_neg (hnonneg n), if_neg (hnonneg m), Int.natAbs_natCast, Int.natAbs_natCast]
  omega

theorem requestLength_le {R : Type*} (p : Printing R) {n m : ℕ} (h : n ≤ m) :
    requestLength p n ≤ requestLength p m := by
  have hwidth := width_le_width h
  unfold requestLength
  omega

section Fits

variable {R : Type*} [DivisionRing R] (log2 : ℤ → R) (p : Printing R)

/-- However the threads interleave, the report fits its buffers. -/
def AllFit (clients : List (Client hh lh)) : Prop :=
  ∀ l t, Interleaving (clients.map (processData log2)) l → aggregate l = some t → Fits log2 p t

/-- Where the sketches of all clients are measured, the longest report of the clients fits. -/
def ReportCapacity (clients : List (Client hh lh)) : Prop :=
  (∀ c ∈ clients, 2 ≤ (c.octet : ℕ) ∧ c.Measured) →
    requestLength p (longestJson log2 p clients) + 1 ≤ maxLength

variable {clients : List (Client hh lh)} {l : List (Section R)} {t : Totals R}

theorem stored_of_interleaving (hl : Interleaving (clients.map (processData log2)) l)
    (hrun : aggregate l = some t) : Stored l t.dist := by
  have hok := (executes_iff log2 hl).mpr (executes_of_run log2 hl hrun)
  obtain ⟨u,hu,hstored⟩ := aggregate_stored l hok
  rwa [Option.some.inj (hrun.symm.trans hu)]

theorem heavyPart_perm_clientEntries (hl : Interleaving (clients.map (processData log2)) l)
    (hrun : aggregate l = some t) : t.heavyPart.Perm (clientEntries clients) := by
  obtain ⟨-,-,-,hheavy⟩ := totals_of_interleaving log2 hl hrun
  rwa [funext (heavyEntries_eq log2)] at hheavy

theorem countsOk_heavyPart (hl : Interleaving (clients.map (processData log2)) l)
    (hrun : aggregate l = some t) : CountsOk t.heavyPart := fun entry hentry =>
  countsOk_clientEntries clients entry ((heavyPart_perm_clientEntries log2 hl hrun).subset hentry)

/-- Only the two members depend on the interleaving. -/
theorem length_makeJson_run (hl : Interleaving (clients.map (processData log2)) l)
    (hrun : aggregate l = some t) : (makeJson log2 p t).length =
      jsonLength log2 p (reportedCardinality clients) (reportedTot log2 clients)
        (reportedEntr log2 clients) (heavyLength (reached t.heavyPart))
        (distTextLength (intSize (topClient clients)) fun n => tmpLength (lastStored l n)) := by
  obtain ⟨hcard,htot,hentr,-⟩ := totals_of_interleaving log2 hl hrun
  have hstored := stored_of_interleaving log2 hl hrun
  rw [length_makeJson, length_heavyText (countsOk_heavyPart log2 hl hrun), length_distText, hcard, htot, hentr, hstored.length,
    topId_eq_topClient log2 hl]
  simp only [hstored.slot, reportedCardinality, reportedTot, reportedEntr]

theorem length_makeJson_le (hl : Interleaving (clients.map (processData log2)) l)
    (hrun : aggregate l = some t) : (makeJson log2 p t).length ≤ longestJson log2 p clients := by
  have hheavy := heavyLength_le ((reached_sublist t.heavyPart).subperm.trans
    (heavyPart_perm_clientEntries log2 hl hrun).subperm)
  have hdist := distTextLength_le (intSize_le (topClient clients))
    fun n _ => tmpLength_lastStored_le log2 hl n
  rw [length_makeJson_run log2 p hl hrun, longestJson, jsonLength, jsonLength]
  omega

theorem topClient_lt (clients : List (Client hh lh)) : topClient clients < 2^31 := by
  have hle : topClient clients ≤ 255 := by
    rw [topClient, foldr_max_le_iff]
    refine ⟨Nat.zero_le _,fun x hx => ?_⟩
    obtain ⟨c,-,rfl⟩ := List.mem_map.mp hx
    have := c.octet.isLt
    unfold Client.clientId
    omega
  omega

/-- Some interleaving reports as much as the clients allow, as long as the number of entries is
an `int`. -/
theorem exists_longest (hok : ∀ c ∈ clients, 2 ≤ (c.octet : ℕ) ∧ c.Measured)
    (hentries : (clientEntries clients).length < 2^31) :
    ∃ l t, Interleaving (clients.map (processData log2)) l ∧ aggregate l = some t ∧
      (makeJson log2 p t).length = longestJson log2 p clients := by
  set order := clients.insertionSort fun c d => c.arrayLength ≤ d.arrayLength with horder
  have hperm : order.Perm clients := List.perm_insertionSort _ _
  have hsorted : order.Pairwise fun c d => c.arrayLength ≤ d.arrayLength :=
    List.pairwise_insertionSort _ _
  have hl : Interleaving (clients.map (processData log2)) (order.map (processData log2)).flatten :=
    (Interleaving.sequential _).of_perm (hperm.map _)
  obtain ⟨t,hrun,-⟩ := aggregate_stored _ ((executes_iff log2 hl).mpr hok)
  refine ⟨_,t,hl,hrun,?_⟩
  have hheavy := heavyPart_perm_clientEntries log2 hl hrun
  have hreached : reached t.heavyPart = t.heavyPart :=
    reached_eq_self (hheavy.length_eq.trans_lt hentries)
  have hlongest : heavyLength t.heavyPart = heavyLength (clientEntries clients) :=
    le_antisymm (heavyLength_le hheavy.subperm) (heavyLength_le hheavy.symm.subperm)
  have hdist (n : ℕ) : tmpLength (lastStored (order.map (processData log2)).flatten n) =
      slotLength clients n := by
    rw [tmpLength_lastStored_sorted log2 order hsorted (fun c hc => (hok c (hperm.subset hc)).2.1) n,
      slotLength_perm hperm]
  rw [length_makeJson_run log2 p hl hrun, hreached, hlongest,
    (intSize_eq_iff _).mpr (topClient_lt clients), funext hdist, longestJson]

end Fits

theorem length_slotEntries {s : ElasticSketch hh lh} (h : ∀ i j, mergedVal s i j ≠ 0) :
    (slotEntries s).length = hh.size * maxValidCounter := by
  have hall : (slots hh).filter (fun ij => mergedVal s ij.1 ij.2 ≠ 0) = slots hh :=
    List.filter_eq_self.mpr fun ij _ => decide_eq_true (h ij.1 ij.2)
  rw [slotEntries, hall, List.length_map, slots]
  simp [List.length_flatMap]

/-- One packet for each slot of 64 buckets. -/
def fullKeys : List Key :=
  (List.range 64).flatMap fun i => (List.range 7).map fun j =>
    ⟨UInt8.ofNat (i+1) :: UInt8.ofNat (j+1) :: List.replicate 11 1,rfl⟩

theorem length_fullKeys : fullKeys.length = 448 := by decide +kernel

/-- A hundred devices, at the addresses ending in .2 to .101, that have seen the same. -/
def hundredClients (s : ElasticSketch hh lh) : List (Client hh lh) :=
  (List.finRange 100).map fun (i : Fin 100) => ⟨⟨i+2,by omega⟩,s,fun _ => Key.zeroStr⟩

theorem mergedVal_fullKeys :
    let hh : Hashing := ⟨64,by decide,by decide,fun key => (key.bytes.getD 0 0).toUInt32⟩
    ∀ (lh : Hashing) (s : ElasticSketch hh lh), insertAll hh lh fullKeys = some s →
      ∀ i j, mergedVal s i j ≠ 0 := by
  intro hh lh s hrun i j
  have hcount : ∀ (pos : Fin hh.size) (k : Fin maxValidCounter), count ((Lockstep.final
      HeavyPart.bucketUnit Bucket.zero (HeavyPart.packetsAt hh pos fullKeys)).slot k) ≠ 0 := by
    decide +kernel
  have hslot := hcount i j
  rw [← buckets_eq_final hrun] at hslot
  have hlen := length_fullKeys
  obtain ⟨u,hu,hok,-⟩ := @ElasticSketch.mass_le_sum hh lh (fun _ => 1) fullKeys (by omega)
    fun _ _ => rfl
  obtain rfl : u = s := Option.some.inj (hu.symm.trans hrun)
  have hmass := hok.mass_le
  have hval := mergedVal_toNat u i j (by omega)
  intro hzero
  rw [hzero, UInt32.toNat_zero] at hval
  omega

end SketchMonitor
