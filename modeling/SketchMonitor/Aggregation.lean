import SketchMonitor.Cardinality
import SketchMonitor.Distribution
import SketchMonitor.ReportEntropy

/-!
# Aggregation over all interleavings

The totals start empty and every section of every thread runs on them once. Sums
and pushes commute up to the order of the list. The slot of a client in `dist`
is its id less one, and the id is already the last octet less one: only from
octet 2 on is that an index of the vector. Clients with one id share a slot, which
holds what was stored there last.
-/

namespace SketchMonitor

variable {R : Type*} [Ring R]

/-- The shared variables when `makeJSON` starts its threads. -/
def Totals.empty : Totals R := ⟨0,0,0,[],[]⟩

/-- All sections in the order they execute; `none` is an access outside `dist`. -/
def aggregate (l : List (Section R)) : Option (Totals R) := Runs.run Section.exec Totals.empty l

/-- What the sections so far have added to everything but `dist`. -/
structure Added (l : List (Section R)) (t : Totals R) : Prop where
  cardinality : t.cardinality = toInt32 (l.map Section.cardinalityPart).sum
  tot : t.tot = toInt32 (l.map Section.totPart).sum
  entr : t.entr = (l.map Section.entrPart).sum
  heavyPart : t.heavyPart = l.filterMap Section.heavyEntry

theorem Added.step {l : List (Section R)} {t u : Totals R} {a : Section R} (h : Added l t)
    (ha : a.exec t = some u) : Added (l ++ [a]) u := by
  obtain ⟨hcard,htot,hentr,hheavy⟩ := h
  cases a with
  | storeDist clientId tmpDist =>
    obtain ⟨dist,-,rfl⟩ := Option.map_eq_some_iff.mp ha
    constructor <;> simp [hcard, htot, hentr, hheavy]
  | addCardinality c =>
    obtain ⟨card,rfl,rfl⟩ := Option.map_eq_some_iff.mp ha
    constructor <;> simp [hcard, htot, hentr, hheavy, toInt32_add_toInt32]
  | addTot d e =>
    obtain rfl := Option.some.inj ha
    constructor <;> simp [hcard, htot, hentr, hheavy, toInt32_add_toInt32]
  | pushHeavy q p =>
    obtain rfl := Option.some.inj ha
    constructor <;> simp [hcard, htot, hentr, hheavy]

theorem aggregate_added {l : List (Section R)} {t : Totals R} (h : aggregate l = some t) :
    Added l t :=
  Runs.run_preserves Added ⟨rfl,rfl,rfl,rfl⟩ (fun _ _ _ _ hl ha => hl.step ha) l t h

theorem toSizeT_natCast {n : ℕ} (h : n < 2^64) : toSizeT n = n := by
  unfold toSizeT
  omega

/-- The totals of a report are those of its sections in order. -/
theorem aggregate_runTot {l : List (Section R)} {t : Totals R} (h : aggregate l = some t) :
    t.tot = runTot l ∧ t.entr = runEntr l := by
  have hadded := aggregate_added h
  rw [runTot_eq, runEntr_eq]
  exact ⟨hadded.tot,hadded.entr⟩

/-- Storing under an id that devices from octet 2 on send. -/
theorem storeDist_succ (dist : List (List ℤ)) {n : ℕ} (d : List ℤ) (hn : n < distMaxSize) :
    ∃ dist', storeDist dist (n+1 : ℕ) d = some dist' ∧ dist'.length = max dist.length (n+1) ∧
      ∀ m, dist'.getD m [] = if m = n then d else dist.getD m [] := by
  have hmax : distMaxSize < 2^64 - 1 := by decide
  have hslot : toSizeT (((n+1 : ℕ) : ℤ) - 1) = n := by
    rw [Nat.cast_succ, add_sub_cancel_right, toSizeT_natCast (by omega)]
  have hsize : toSizeT (n+1 : ℕ) = n+1 := toSizeT_natCast (by omega)
  have hset {padded : List (List ℤ)} (hin : n < padded.length) (m : ℕ) :
      (padded.set n d).getD m [] = if m = n then d else padded.getD m [] := by
    simp only [List.getD_eq_getElem?_getD, List.getElem?_set]
    by_cases hm : m = n
    · simp [hm, hin]
    · simp [hm, Ne.symm hm]
  by_cases hlen : n ≥ dist.length
  · set padded := dist ++ List.replicate (n+1 - dist.length) [] with hpadded
    have hin : n < padded.length := by
      simp only [hpadded, List.length_append, List.length_replicate]
      omega
    have hresize : resizeDist dist (n+1) = some padded := by
      rw [resizeDist, if_pos (Nat.succ_le_of_lt hn), List.take_of_length_le (by omega)]
    refine ⟨padded.set n d,?_,?_,fun m => ?_⟩
    · simp only [storeDist, hslot, hsize, if_pos hlen, hresize, Option.bind_eq_bind, Option.bind_some,
        if_pos hin]
    · simp only [hpadded, List.length_set, List.length_append, List.length_replicate]
      omega
    · rw [hset hin, hpadded, getD_append_replicate]
  · have hin : n < dist.length := not_le.mp hlen
    refine ⟨dist.set n d,?_,?_,hset hin⟩
    · simp only [storeDist, hslot, if_neg hlen, Option.bind_eq_bind, Option.bind_some, if_pos hin]
    · rw [List.length_set]
      omega

/-- Under any other id a device can send, the section fails: an id of zero makes the vector
empty, a negative one asks for more than `max_size()`. -/
theorem storeDist_of_nonpos {dist : List (List ℤ)} {id : ℤ} (d : List ℤ) (hmin : -1 ≤ id)
    (hid : id ≤ 0) (hlen : dist.length ≤ distMaxSize) : storeDist dist id d = none := by
  have hmax : distMaxSize < 2^64 - 2 := by decide
  obtain rfl | rfl : id = 0 ∨ id = -1 := by omega
  · have hslot : toSizeT (0 - 1) = 2^64 - 1 := by decide
    have hsize : toSizeT 0 = 0 := by decide
    simp only [storeDist, hslot, hsize, Option.bind_eq_bind]
    rw [if_pos (by omega), resizeDist, if_pos (Nat.zero_le _)]
    simp
  · have hslot : toSizeT (-1 - 1) = 2^64 - 2 := by decide
    have hsize : toSizeT (-1) = 2^64 - 1 := by decide
    simp only [storeDist, hslot, hsize, Option.bind_eq_bind]
    rw [if_pos (by omega), resizeDist, if_neg (by omega), Option.bind_none]

/-- The distribution that is stored in a slot last. -/
def lastStored (l : List (Section R)) (n : ℕ) : List ℤ :=
  l.foldl (fun d a => match a with
    | .storeDist id (some d') => if id = (n+1 : ℕ) then d' else d
    | _ => d) []

/-- The size that the sections have asked for. -/
def topId (l : List (Section R)) : ℕ :=
  l.foldl (fun top a => match a with
    | .storeDist id _ => max top id.toNat
    | _ => top) 0

/-- The vector as the sections so far have left it. -/
structure Stored (l : List (Section R)) (dist : List (List ℤ)) : Prop where
  length : dist.length = topId l
  slot : ∀ n, dist.getD n [] = lastStored l n

/-- The section executes on any totals. -/
def Section.Executes : Section R → Prop
  | .storeDist id d => (∃ n : ℕ, id = (n+1 : ℕ) ∧ n < distMaxSize) ∧ d.isSome
  | .addCardinality c => c.isSome
  | _ => True

/-- Sections that store what is defined under valid ids all execute. -/
theorem aggregate_stored (l : List (Section R)) (hok : ∀ a ∈ l, a.Executes) :
    ∃ t, aggregate l = some t ∧ Stored l t.dist := by
  refine Runs.run_total (fun l => ∀ a ∈ l, Section.Executes a)
    (fun l (t : Totals R) => Stored l t.dist) (fun l a h b hmem => h b (by simp [hmem]))
    ⟨rfl,fun n => by simp [Totals.empty, lastStored]⟩ ?_ l hok
  intro l a t hok ht
  have ha := hok a (by simp)
  have hkeep {u : Totals R} (hdist : u.dist = t.dist) (htop : topId (l ++ [a]) = topId l)
      (hlast : ∀ n, lastStored (l ++ [a]) n = lastStored l n) : Stored (l ++ [a]) u.dist :=
    ⟨by rw [hdist, htop, ht.length],fun n => by rw [hdist, hlast, ht.slot]⟩
  cases a with
  | storeDist id d =>
    obtain ⟨⟨n,rfl,hn⟩,hd⟩ := ha
    obtain ⟨d,rfl⟩ := Option.isSome_iff_exists.mp hd
    obtain ⟨dist',hrun,hlen,hslot⟩ := storeDist_succ t.dist d hn
    refine ⟨{ t with dist := dist' },?_,?_,fun m => ?_⟩
    · simp only [Section.exec, Option.bind_some, hrun, Option.map_some]
    · simp only [hlen, ht.length, topId, List.foldl_append, List.foldl_cons, List.foldl_nil,
        Int.toNat_natCast]
    · simp only [hslot, ht.slot, lastStored, List.foldl_append, List.foldl_cons, List.foldl_nil,
        Nat.cast_inj, Nat.add_right_cancel_iff, eq_comm]
  | addCardinality c =>
    obtain ⟨c,rfl⟩ := Option.isSome_iff_exists.mp ha
    exact ⟨_,rfl,hkeep rfl (by simp [topId]) fun n => by simp [lastStored]⟩
  | addTot d e => exact ⟨_,rfl,hkeep rfl (by simp [topId]) fun n => by simp [lastStored]⟩
  | pushHeavy q p => exact ⟨_,rfl,hkeep rfl (by simp [topId]) fun n => by simp [lastStored]⟩

omit [Ring R] in
theorem lt_topId {l : List (Section R)} {n : ℕ} {d : Option (List ℤ)}
    (h : .storeDist (n+1 : ℕ) d ∈ l) : n < topId l := by
  induction l using List.reverseRecOn with
  | nil => cases h
  | append_singleton l a ih =>
    rw [topId, List.foldl_append, List.foldl_cons, List.foldl_nil, ← topId]
    rcases List.mem_append.mp h with h | h
    · have hlt := ih h
      cases a <;> simp [hlt]
    · obtain rfl := List.mem_singleton.mp h
      simp

omit [Ring R] in
/-- A slot that something is stored in ends with a distribution stored there. -/
theorem lastStored_mem {l : List (Section R)} {n : ℕ} {d : List ℤ}
    (h : .storeDist (n+1 : ℕ) (some d) ∈ l) :
    .storeDist (n+1 : ℕ) (some (lastStored l n)) ∈ l := by
  induction l using List.reverseRecOn generalizing d with
  | nil => cases h
  | append_singleton l a ih =>
    rw [lastStored, List.foldl_append, List.foldl_cons, List.foldl_nil, ← lastStored]
    have hold (hl : .storeDist (n+1 : ℕ) (some d) ∈ l) :=
      List.mem_append_left [a] (ih hl)
    split
    · next id d' =>
      split_ifs with hid
      · rw [← hid]
        exact List.mem_append_right _ (List.mem_singleton_self _)
      · refine hold ((List.mem_append.mp h).resolve_right fun hmem => hid ?_)
        cases List.mem_singleton.mp hmem
        rfl
    · next hother =>
      refine hold ((List.mem_append.mp h).resolve_right fun hmem => ?_)
      exact hother _ _ (List.mem_singleton.mp hmem).symm

/-- The id is one that a device can send. -/
def Section.FromDevice : Section R → Prop
  | .storeDist id _ => -1 ≤ id ∧ id < 255
  | _ => True

/-- Only such sections execute at all. -/
theorem Section.executes_of_exec {a : Section R} {t u : Totals R} (ha : a.FromDevice)
    (hlen : t.dist.length ≤ distMaxSize) (h : a.exec t = some u) :
    a.Executes ∧ u.dist.length ≤ distMaxSize := by
  cases a with
  | storeDist id d =>
    obtain ⟨hmin,hmax⟩ := ha
    have hsize : 255 < distMaxSize := by decide
    obtain ⟨dist,hdist,rfl⟩ := Option.map_eq_some_iff.mp h
    obtain ⟨d,rfl,hstore⟩ := Option.bind_eq_some_iff.mp hdist
    obtain ⟨n,rfl⟩ : ∃ n : ℕ, id = (n+1 : ℕ) := by
      by_contra hnone
      have hnonpos : id ≤ 0 := by
        by_contra hpos
        exact hnone ⟨(id - 1).toNat,by omega⟩
      rw [storeDist_of_nonpos d hmin hnonpos hlen] at hstore
      exact absurd hstore (by simp)
    have hn : n < distMaxSize := by omega
    obtain ⟨dist',hrun,hlen',-⟩ := storeDist_succ t.dist d hn
    obtain rfl : dist' = dist := Option.some.inj (hrun.symm.trans hstore)
    exact ⟨⟨⟨n,rfl,hn⟩,rfl⟩,by simp only [hlen']; omega⟩
  | addCardinality c =>
    obtain ⟨c,rfl,rfl⟩ := Option.map_eq_some_iff.mp h
    exact ⟨rfl,hlen⟩
  | addTot d e =>
    obtain rfl := Option.some.inj h
    exact ⟨trivial,hlen⟩
  | pushHeavy q p =>
    obtain rfl := Option.some.inj h
    exact ⟨trivial,hlen⟩

theorem executes_of_aggregate {l : List (Section R)} {t : Totals R} (hl : ∀ a ∈ l, a.FromDevice)
    (h : aggregate l = some t) : ∀ a ∈ l, a.Executes := by
  have hinv := Runs.run_preserves (fun l (t : Totals R) => (∀ a ∈ l, Section.FromDevice a) →
    (∀ a ∈ l, a.Executes) ∧ t.dist.length ≤ distMaxSize) (fun _ => ⟨by simp,Nat.zero_le _⟩)
    (fun l a t u ih ha hdev => ?_) l t h hl
  · exact hinv.1
  · obtain ⟨hold,hlen⟩ := ih fun b hb => hdev b (by simp [hb])
    obtain ⟨hexec,hlen'⟩ := Section.executes_of_exec (hdev a (by simp)) hlen ha
    refine ⟨fun b hb => ?_,hlen'⟩
    rcases List.mem_append.mp hb with hb | hb
    · exact hold b hb
    · rwa [List.mem_singleton.mp hb]

variable {hh lh : Hashing} (log2 : ℤ → R)

/-- `get_distribution` and `get_cardinality` are defined on the copied sketch. -/
def Client.Measured (c : Client hh lh) : Prop := c.tmpDist.isSome ∧ c.cardinality.isSome

/-- What a sketch must be like: room for all bins, merged counts that fit, and a light
counter that is zero. -/
theorem Client.measured {c : Client hh lh} (hs : c.sketch.Reachable) (hroom : c.sketch.HasRoom)
    (hstore : ∀ ij, ElasticSketch.Storable (c.sketch.slotVal ij) (c.sketch.light (c.buffers ij)))
    (hvisible : c.sketch.CountsVisible) : c.Measured := by
  obtain ⟨dist,hdist,-⟩ := hroom.getDistribution hstore
  exact ⟨by rw [tmpDist, hdist]; rfl,by rw [cardinality, hvisible.getCardinality hs]; rfl⟩

/-- A run with fewer packets than light counters leaves such a sketch. -/
theorem Client.measured_of_insertAll {c : Client hh lh} {keys : List Key}
    (hrun : ElasticSketch.insertAll hh lh keys = some c.sketch) (hlen : keys.length < lh.size)
    (hsize : lh.size * keys.length + hh.size * maxValidCounter < 2^31) : c.Measured := by
  have hpos : keys.length ≤ lh.size * keys.length := Nat.le_mul_of_pos_left _ lh.size_pos
  have hslots : 0 < hh.size * maxValidCounter := Nat.mul_pos hh.size_pos (by decide)
  obtain ⟨s,hs,hok,-⟩ := @ElasticSketch.mass_le_sum hh lh (fun _ => 1) keys (by omega) fun _ _ => rfl
  obtain rfl : s = c.sketch := Option.some.inj (hs.symm.trans hrun)
  have hmass : c.sketch.totalMass ≤ keys.length := hok.mass_le
  have hlight := c.sketch.light_le_totalMass
  have hsum (ij : Fin hh.size × Fin maxValidCounter) (k : Key) :
      count (c.sketch.slotVal ij) + c.sketch.light k ≤ keys.length :=
    (c.sketch.count_add_counter_le ij.1 ij.2 (lh.pos k)).trans hmass
  have hused : c.sketch.lightPart.inUse ≤ keys.length :=
    (c.sketch.lightPart.inUse_le_sum.trans hlight).trans hmass
  have hfree := hused.trans_lt hlen
  refine Client.measured (ElasticSketch.reachable_of_insertAll hrun) ?_ (fun ij => ?_)
    ⟨(ElasticSketch.enough_free_iff hfree).mpr ?_,fun ij hwrap => ?_⟩
  · rw [ElasticSketch.HasRoom, LightPart.tmpCounters, List.sum_ofFn]
    omega
  · have hle := hsum ij (c.buffers ij)
    rw [ElasticSketch.Storable, mergedWith_toNat]
    split_ifs <;> omega
  · have hcount := linearCount_le hfree
    have hfloor : ⌊linearCount lh.size c.sketch.lightPart.inUse⌋ ≤
        (lh.size * c.sketch.lightPart.inUse : ℕ) := by
      refine Int.floor_le_iff.mpr (hcount.trans_lt ?_)
      push_cast
      exact lt_add_one _
    have hmul := Nat.mul_le_mul_left lh.size hused
    have hflows := c.sketch.flowsAlone_le
    omega
  · have hle := hsum ij (c.sketch.slotKey ij)
    have hfull := hwrap.2
    omega

/-- The heavy entries one thread reports. -/
noncomputable def heavyEntries (c : Client hh lh) : List (FiveTuple × PktDat) :=
  (processData log2 c).filterMap Section.heavyEntry

/-- A report that has lost nothing: every distribution at its own slot, the given
sums, and the entries of all clients in some order. -/
structure Aggregated (clients : List (Client hh lh)) (cardinality tot : ℤ) (entr : R)
    (t : Totals R) : Prop where
  dist : ∀ c ∈ clients, c.tmpDist.isSome ∧ t.dist[toSizeT (c.clientId - 1)]? = c.tmpDist
  cardinality : t.cardinality = cardinality
  tot : t.tot = tot
  entr : t.entr = entr
  heavyPart : t.heavyPart.Perm (clients.flatMap (heavyEntries log2))

/-- Every interleaving runs to its end and reports the same. -/
def AggregatesAll (clients : List (Client hh lh)) : Prop :=
  ∃ (cardinality tot : ℤ) (entr : R), ∀ l, Interleaving (clients.map (processData log2)) l →
    ∃ t, aggregate l = some t ∧ Aggregated log2 clients cardinality tot entr t

/-- After its first section a thread stores nothing. -/
theorem storeDist_notMem_rest (s : ElasticSketch hh lh) (id : ℤ) (d : Option (List ℤ)) :
    .storeDist id d ∉ lightSections log2 s.lightPart ++ heavySections log2 s := by
  have hslot (i j) : Section.storeDist id d ∉ slotSections log2 s i j := by
    simp only [slotSections, estimateSections, valueSections]
    split_ifs <;> simp
  simp [lightSections, heavySections, hslot]

theorem storeDist_mem_processData {c : Client hh lh} {id : ℤ} {d : Option (List ℤ)} :
    .storeDist id d ∈ processData log2 c ↔ id = c.clientId ∧ d = c.tmpDist := by
  have hrest := storeDist_notMem_rest log2 c.sketch id d
  simp [processData, List.mem_cons, -List.mem_append, hrest]

theorem addCardinality_mem_processData {c : Client hh lh} {card : Option ℤ} :
    .addCardinality card ∈ processData log2 c ↔ card = c.cardinality := by
  have hslot (i j) : Section.addCardinality card ∉ slotSections log2 c.sketch i j := by
    simp only [slotSections, estimateSections, valueSections]
    split_ifs <;> simp
  simp [processData, lightSections, heavySections, hslot]

theorem mem_interleaving {clients : List (Client hh lh)} {l : List (Section R)}
    (hl : Interleaving (clients.map (processData log2)) l) {a : Section R} :
    a ∈ l ↔ ∃ c ∈ clients, a ∈ processData log2 c := by
  rw [hl.perm.mem_iff]
  simp

theorem storeDist_mem_interleaving {clients : List (Client hh lh)} {l : List (Section R)}
    (hl : Interleaving (clients.map (processData log2)) l) {id : ℤ} {d : Option (List ℤ)} :
    .storeDist id d ∈ l ↔ ∃ c ∈ clients, id = c.clientId ∧ d = c.tmpDist := by
  simp only [mem_interleaving log2 hl, storeDist_mem_processData]

theorem processData_cardinality (c : Client hh lh) :
    ((processData log2 c).map Section.cardinalityPart).sum = c.cardinality.getD 0 := by
  have hslot (i j) : ((slotSections log2 c.sketch i j).map Section.cardinalityPart).sum = 0 := by
    simp only [slotSections, estimateSections, valueSections]
    split_ifs <;> simp
  have hlight : ((lightSections log2 c.sketch.lightPart).map Section.cardinalityPart).sum = 0 := by
    refine List.sum_eq_zero fun x hx => ?_
    simp only [lightSections, List.map_map, List.mem_map] at hx
    obtain ⟨i,-,rfl⟩ := hx
    rfl
  simp [processData, hlight, heavySections, FiniteSums.sum_map_flatMap_finRange, hslot]

/-- The id of a device from octet 2 on is its slot plus one. -/
theorem Client.clientId_eq_succ {c : Client hh lh} (hc : 2 ≤ (c.octet : ℕ)) :
    c.clientId = ((c.octet - 2 : ℕ) + 1 : ℕ) := by
  have := c.octet.isLt
  unfold Client.clientId
  omega

/-- The sections of the clients execute exactly if the clients have valid ids and are
measured. -/
theorem executes_iff {clients : List (Client hh lh)} {l : List (Section R)}
    (hl : Interleaving (clients.map (processData log2)) l) :
    (∀ a ∈ l, a.Executes) ↔ ∀ c ∈ clients, 2 ≤ (c.octet : ℕ) ∧ c.Measured := by
  constructor
  · intro h c hc
    obtain ⟨⟨n,hid,-⟩,hdist⟩ :=
      h _ ((storeDist_mem_interleaving log2 hl).mpr ⟨c,hc,rfl,rfl⟩)
    refine ⟨?_,hdist,h (.addCardinality c.cardinality) ?_⟩
    · unfold Client.clientId at hid
      omega
    · exact (mem_interleaving log2 hl).mpr ⟨c,hc,(addCardinality_mem_processData log2).mpr rfl⟩
  · intro h a ha
    have hmax : 254 < distMaxSize := by decide
    obtain ⟨c,hc,hac⟩ := (mem_interleaving log2 hl).mp ha
    obtain ⟨hoctet,hdist,hcard⟩ := h c hc
    cases a with
    | storeDist id d =>
      obtain ⟨rfl,rfl⟩ := (storeDist_mem_processData log2).mp hac
      have := c.octet.isLt
      exact ⟨⟨_,c.clientId_eq_succ hoctet,by omega⟩,hdist⟩
    | addCardinality card =>
      obtain rfl := (addCardinality_mem_processData log2).mp hac
      exact hcard
    | addTot d e => trivial
    | pushHeavy q p => trivial

theorem executes_of_run {clients : List (Client hh lh)} {l : List (Section R)} {t : Totals R}
    (hl : Interleaving (clients.map (processData log2)) l) (h : aggregate l = some t) :
    ∀ c ∈ clients, 2 ≤ (c.octet : ℕ) ∧ c.Measured := by
  refine (executes_iff log2 hl).mp (executes_of_aggregate (fun a ha => ?_) h)
  obtain ⟨c,-,hac⟩ := (mem_interleaving log2 hl).mp ha
  cases a with
  | storeDist id d =>
    obtain ⟨rfl,-⟩ := (storeDist_mem_processData log2).mp hac
    have := c.octet.isLt
    refine ⟨?_,?_⟩ <;> unfold Client.clientId <;> omega
  | addCardinality card => trivial
  | addTot d e => trivial
  | pushHeavy q p => trivial

/-- The slot of a client ends with the distribution of a client with its id. -/
theorem exists_lastStored {clients : List (Client hh lh)} {l : List (Section R)}
    (hl : Interleaving (clients.map (processData log2)) l) {c : Client hh lh} (hc : c ∈ clients)
    (hoctet : 2 ≤ (c.octet : ℕ)) (hdist : c.tmpDist.isSome) :
    ∃ d ∈ clients, d.clientId = c.clientId ∧ d.tmpDist = some (lastStored l (c.octet - 2)) := by
  obtain ⟨dist,hd⟩ := Option.isSome_iff_exists.mp hdist
  have hid := c.clientId_eq_succ hoctet
  have hmem : .storeDist ((c.octet - 2 : ℕ) + 1 : ℕ) (some dist) ∈ l :=
    (storeDist_mem_interleaving log2 hl).mpr ⟨c,hc,hid.symm,hd.symm⟩
  obtain ⟨d,hd,hsame,hlast⟩ := (storeDist_mem_interleaving log2 hl).mp (lastStored_mem hmem)
  exact ⟨d,hd,hsame.symm.trans hid.symm,hlast.symm⟩

/-- Everything but `dist` is the same for every interleaving. -/
theorem totals_of_interleaving {clients : List (Client hh lh)} {l : List (Section R)}
    (hl : Interleaving (clients.map (processData log2)) l) {t : Totals R}
    (hrun : aggregate l = some t) :
    t.cardinality = toInt32 (clients.map fun c => c.cardinality.getD 0).sum ∧
      t.tot = toInt32 (clients.map fun c => ((processData log2 c).map Section.totPart).sum).sum ∧
      t.entr = (clients.map fun c => ((processData log2 c).map Section.entrPart).sum).sum ∧
      t.heavyPart.Perm (clients.flatMap (heavyEntries log2)) := by
  have hadded := aggregate_added hrun
  refine ⟨?_,?_,?_,?_⟩
  · rw [hadded.cardinality, hl.sum_map, List.map_map, Function.comp_def]
    simp only [processData_cardinality]
  · rw [hadded.tot, hl.sum_map, List.map_map]
    rfl
  · rw [hadded.entr, hl.sum_map, List.map_map]
    rfl
  · rw [hadded.heavyPart]
    have hperm := hl.perm.filterMap Section.heavyEntry
    rwa [List.filterMap_flatten, List.map_map] at hperm

theorem aggregated_of_interleaving {clients : List (Client hh lh)}
    (hok : ∀ c ∈ clients, 2 ≤ (c.octet : ℕ) ∧ c.Measured)
    (hsame : ∀ c ∈ clients, ∀ d ∈ clients, c.clientId = d.clientId → c.tmpDist = d.tmpDist)
    {l : List (Section R)} (hl : Interleaving (clients.map (processData log2)) l) :
    ∃ t, aggregate l = some t ∧ Aggregated log2 clients
      (toInt32 (clients.map fun c => c.cardinality.getD 0).sum)
      (toInt32 (clients.map fun c => ((processData log2 c).map Section.totPart).sum).sum)
      (clients.map fun c => ((processData log2 c).map Section.entrPart).sum).sum t := by
  obtain ⟨t,hrun,hstored⟩ := aggregate_stored l ((executes_iff log2 hl).mpr hok)
  obtain ⟨hcard,htot,hentr,hheavy⟩ := totals_of_interleaving log2 hl hrun
  refine ⟨t,hrun,fun c hc => ?_,hcard,htot,hentr,hheavy⟩
  obtain ⟨hoctet,hdist,-⟩ := hok c hc
  have hid := c.clientId_eq_succ hoctet
  obtain ⟨d,hd,hdid,hlast⟩ := exists_lastStored log2 hl hc hoctet hdist
  have hlt : (c.octet - 2 : ℕ) < t.dist.length := by
    rw [hstored.length]
    exact lt_topId (d := c.tmpDist) ((storeDist_mem_interleaving log2 hl).mpr ⟨c,hc,hid.symm,rfl⟩)
  have hslot := hstored.slot (c.octet - 2)
  rw [List.getD_eq_getElem _ _ hlt] at hslot
  have := c.octet.isLt
  refine ⟨hdist,?_⟩
  rw [hid, Nat.cast_succ, add_sub_cancel_right, toSizeT_natCast (by omega),
    List.getElem?_eq_getElem hlt, hslot, ← hlast, hsame d hd c hc hdid]

theorem AggregatesAll.ok {clients : List (Client hh lh)} (h : AggregatesAll log2 clients) :
    ∀ c ∈ clients, 2 ≤ (c.octet : ℕ) ∧ c.Measured := by
  obtain ⟨cardinality,tot,entr,h⟩ := h
  obtain ⟨t,hrun,-⟩ := h _ (Interleaving.sequential _)
  exact executes_of_run log2 (Interleaving.sequential _) hrun

theorem AggregatesAll.tmpDist_eq {clients : List (Client hh lh)} (h : AggregatesAll log2 clients)
    {c d : Client hh lh} (hc : c ∈ clients) (hd : d ∈ clients) (hid : c.clientId = d.clientId) :
    c.tmpDist = d.tmpDist := by
  obtain ⟨cardinality,tot,entr,h⟩ := h
  obtain ⟨t,-,ht⟩ := h _ (Interleaving.sequential _)
  have hslot := (ht.dist c hc).2
  rw [hid, (ht.dist d hd).2] at hslot
  exact hslot.symm

theorem aggregatesAll_iff_tmpDist (clients : List (Client hh lh)) :
    AggregatesAll log2 clients ↔ (∀ c ∈ clients, 2 ≤ (c.octet : ℕ) ∧ c.Measured) ∧
      ∀ c ∈ clients, ∀ d ∈ clients, c.clientId = d.clientId → c.tmpDist = d.tmpDist := by
  constructor
  · intro h
    exact ⟨h.ok,fun c hc d hd hid => h.tmpDist_eq log2 hc hd hid⟩
  · rintro ⟨hok,hsame⟩
    exact ⟨_,_,_,fun l hl => aggregated_of_interleaving log2 hok hsame hl⟩

/-- Where no two clients have the same id, aggregation loses nothing exactly when every device
has octet 2 or more and every sketch is measured. Clients with the same id lose nothing only
if their distributions are the same. -/
theorem aggregatesAll_iff (clients : List (Client hh lh)) :
    ((clients.map Client.clientId).Nodup → (AggregatesAll log2 clients ↔
      ∀ c ∈ clients, 2 ≤ (c.octet : ℕ) ∧ c.Measured)) ∧
    (AggregatesAll log2 clients ↔ (∀ c ∈ clients, 2 ≤ (c.octet : ℕ) ∧ c.Measured) ∧
      ∀ c ∈ clients, ∀ d ∈ clients, c.clientId = d.clientId →
        c.sketch.getDistribution Real.exp c.buffers =
          d.sketch.getDistribution Real.exp d.buffers) := by
  have hiff := aggregatesAll_iff_tmpDist log2 clients
  refine ⟨fun hids => ?_,hiff⟩
  rw [hiff, and_iff_left]
  intro c hc d hd hid
  rw [List.inj_on_of_nodup_map hids hc hd hid]

/-- A device at an address ending in .1 sends the id 0 and `dist[-1]` is written. -/
theorem aggregatesAll_fails_octet_one :
    let hh : Hashing := ⟨64,by decide,by decide,fun _ => 0⟩
    let lh : Hashing := ⟨8448,by decide,by decide,fun _ => 0⟩
    ¬ AggregatesAll realLog2
      [(⟨1,ElasticSketch.clear hh lh,fun _ => Key.zeroStr⟩ : Client hh lh)] := by
  intro hh lh h
  exact absurd (h.ok realLog2 _ (List.mem_singleton_self _)).1 (by decide)

end SketchMonitor
