import SketchMonitor.ReportTotals

/-!
# Flow identity in the heavy part

A slot identifies a flow as long as every inserted key is one that `strncpy`
copies whole. The addresses of a packet are stored in binary, so a key may also
have a zero byte before a nonzero one; a single such packet is stored under
another flow's key.
-/

namespace SketchMonitor

namespace Bucket

/-- Every occupied slot of the bucket at `pos` belongs to one flow among `keys`. Only
the first slot that reads as empty may hold a count, that of the all-zero key. -/
structure FlowOk {h : Hashing} (pos : Fin h.size) (keys : List Key) (b : Bucket) : Prop where
  copied : ∀ i, (b.key i).strncpy = b.key i
  distinct : ∀ i j, b.key i = b.key j → b.key i ≠ Key.zeroStr → i = j
  firstEmpty : ∀ i j, j < i → b.key i = Key.zeroStr → b.key j = Key.zeroStr → b.slot i = 0
  counted : ∀ i, b.slot i ≠ 0 →
    h.pos (b.key i) = pos ∧ b.key i ∈ keys ∧ count (b.slot i) ≤ keys.count (b.key i)

variable {h : Hashing} {pos : Fin h.size} {keys : List Key} {b b' : Bucket} {key : Key}

theorem FlowOk.zero (pos : Fin h.size) : FlowOk pos [] Bucket.zero where
  copied i := by simp
  distinct i j _ hi := absurd rfl hi
  firstEmpty i j _ _ _ := rfl
  counted i hi := absurd rfl hi

theorem FlowOk.mono (hb : FlowOk pos keys b) (key : Key) : FlowOk pos (keys ++ [key]) b where
  copied := hb.copied
  distinct := hb.distinct
  firstEmpty := hb.firstEmpty
  counted i hi := by
    obtain ⟨hpos,hmem,hle⟩ := hb.counted i hi
    exact ⟨hpos,by simp [hmem],by rw [List.count_append]; omega⟩

theorem FlowOk.count_le (hb : FlowOk pos keys b) (i : Fin maxValidCounter) :
    count (b.slot i) ≤ keys.count (b.key i) := by
  by_cases hi : b.slot i = 0
  · simp [hi, count_eq_mod]
  · exact (hb.counted i hi).2.2

theorem FlowOk.matches_iff (hb : FlowOk pos keys b) (hkey : key.Whole) (i : Fin maxValidCounter) :
    b.Matches key i ↔ b.key i = key := matches_iff_of_copied (hb.copied i) hkey

theorem FlowOk.readsEmpty_iff (hb : FlowOk pos keys b) (i : Fin maxValidCounter) :
    b.ReadsEmpty i ↔ b.key i = Key.zeroStr := readsEmpty_iff_of_copied (hb.copied i)

/-- A key that is copied whole takes over one slot. -/
theorem copied_replace (hcopied : ∀ i, (b.key i).strncpy = b.key i) (hkey : key.Whole)
    {i : Fin maxValidCounter} (hkeys : b'.key = Function.update b.key i key) (j) :
    (b'.key j).strncpy = b'.key j := by
  rw [hkeys, Function.update_apply]
  split_ifs
  · exact (Key.strncpy_eq_self_iff key).mpr hkey
  · exact hcopied j

/-- The keys stay distinct when one that no slot holds takes over a slot. -/
theorem distinct_replace (hdistinct : ∀ i j, b.key i = b.key j → b.key i ≠ Key.zeroStr → i = j)
    (hnew : ∀ j, b.key j ≠ key) {i : Fin maxValidCounter}
    (hkeys : b'.key = Function.update b.key i key) (j k) (heq : b'.key j = b'.key k)
    (hj : b'.key j ≠ Key.zeroStr) : j = k := by
  rw [hkeys, Function.update_apply, Function.update_apply] at heq
  rw [hkeys, Function.update_apply] at hj
  split_ifs at heq hj with hji hki hki
  · exact hji.trans hki.symm
  · exact absurd heq.symm (hnew k)
  · exact absurd heq (hnew j)
  · exact hdistinct j k heq hj

/-- A new key takes over one slot; the all-zero key only in a bucket without empty slots. -/
theorem FlowOk.replace (hb : FlowOk pos keys b) (hkey : key.Whole) (hpos : h.pos key = pos)
    (i : Fin maxValidCounter) (v : UInt32) (hv : count v = 1) (hnew : ∀ j, b.key j ≠ key)
    (hzero : key = Key.zeroStr → ∀ j, b.key j ≠ Key.zeroStr)
    (hkeys : b'.key = Function.update b.key i key) (hslots : b'.slot = Function.update b.slot i v) :
    FlowOk pos (keys ++ [key]) b' := by
  refine ⟨copied_replace hb.copied hkey hkeys,distinct_replace hb.distinct hnew hkeys,?_,?_⟩
  · intro j k hkj hj hk
    rw [hkeys, Function.update_apply] at hj hk
    rw [hslots, Function.update_apply]
    split_ifs at hj hk ⊢ with hji hki hki
    · omega
    · exact absurd hk (hzero hj k)
    · exact absurd hj (hzero hk j)
    · exact hb.firstEmpty j k hkj hj hk
  · intro j hj
    rw [hslots, Function.update_apply] at hj ⊢
    rw [hkeys, Function.update_apply]
    split_ifs at hj ⊢ with hji
    · exact ⟨hpos,by simp,by simp [hv]⟩
    · exact (hb.mono key).counted j hj

theorem FlowOk.step {r : InsertResult} (hb : FlowOk pos keys b) (hkey : key.Whole)
    (hpos : h.pos key = pos) (hlen : keys.length + 1 < 2^31) (hstep : b.Step key 1 b' r) :
    FlowOk pos (keys ++ [key]) b' := by
  have hnewkey (hnew : ∀ j, ¬ b.Matches key j) (j) : b.key j ≠ key :=
    fun hj => hnew j ((hb.matches_iff hkey j).mpr hj)
  have hwhole : key.strncpy = key := (Key.strncpy_eq_self_iff key).mpr hkey
  cases hstep with
  | matched i hmatch hfirst =>
    have hi : b.key i = key := (hb.matches_iff hkey i).mp hmatch
    have hcount := hb.count_le i
    have hroom : count (b.slot i) + 1 < 2^31 := by
      have := List.count_le_length (a := b.key i) (l := keys)
      omega
    refine ⟨hb.copied,hb.distinct,fun j k hkj hj hk => ?_,fun j hj => ?_⟩
    · rw [setVal_slot, Function.update_apply]
      split_ifs with hji
      · subst j
        have hki : b.Matches key k := (hb.matches_iff hkey k).mpr (hk.trans (hj.symm.trans hi))
        exact absurd hki (hfirst k hkj)
      · exact hb.firstEmpty j k hkj hj hk
    · rw [setVal_slot, Function.update_apply] at hj ⊢
      rw [setVal_key]
      split_ifs at hj ⊢ with hji
      · subst j
        rw [hi] at hcount ⊢
        refine ⟨hpos,by simp,?_⟩
        rw [count_add_one hroom]
        simpa using hcount
      · exact (hb.mono key).counted j hj
  | filled i hnew hempty hfirst =>
    have hi : b.key i = Key.zeroStr := (hb.readsEmpty_iff i).mp hempty
    have hzero : key = Key.zeroStr → ∀ j, b.key j ≠ Key.zeroStr :=
      fun hkey => absurd (hi.trans hkey.symm) (hnewkey hnew i)
    exact hb.replace hkey hpos i 1 rfl (hnewkey hnew) hzero (by simp [hwhole]) (by simp)
  | rejected m hnew hfull hmin hstay =>
    have hmono := hb.mono key
    exact ⟨hmono.copied,hmono.distinct,by simpa using hmono.firstEmpty,by simpa using hmono.counted⟩
  | evicted m hnew hfull hmin hswap =>
    have hocc (j) : b.key j ≠ Key.zeroStr := fun hj => hfull j ((hb.readsEmpty_iff j).mpr hj)
    exact hb.replace hkey hpos m 0x80000001 rfl (hnewkey hnew) (fun _ => hocc) (by simp [hwhole])
      (by simp)

/-- Looking up a stored key finds the slot that counts it. -/
theorem FlowOk.query_stored (hb : FlowOk pos keys b) {i : Fin maxValidCounter}
    (hi : b.slot i ≠ 0) : b.query (b.key i) = b.slot i := by
  have hwhole : (b.key i).Whole := (Key.strncpy_eq_self_iff _).mp (hb.copied i)
  refine query_of_first ((hb.matches_iff hwhole i).mpr rfl) fun j hj hmatch => ?_
  have heq : b.key j = b.key i := (hb.matches_iff hwhole j).mp hmatch
  by_cases hzero : b.key i = Key.zeroStr
  · exact hi (hb.firstEmpty i j hj hzero (heq.trans hzero))
  · exact hj.ne (hb.distinct j i heq (heq ▸ hzero))

/-- The first packet of a bucket goes to slot 0 under what `strncpy` keeps of its key. -/
theorem zero_insert (key : Key) :
    (zero.insert key 1).1.key 0 = key.strncpy ∧ (zero.insert key 1).1.slot 0 = 1 := by
  have hempty (j : Fin maxValidCounter) : zero.ReadsEmpty j :=
    (Bucket.readsEmpty_iff _ _).mpr Key.strncpy_zeroStr
  have hzero {P : Fin maxValidCounter → Prop} {i : Fin maxValidCounter} (hP : ∀ j, P j)
      (hfirst : ∀ j < i, ¬ P j) : i = 0 := by
    by_contra hne
    exact hfirst 0 (Fin.pos_iff_ne_zero.mpr hne) (hP 0)
  cases hstep : zero.insert key 1 with
  | mk b r =>
    have h : zero.Step key 1 b r := by simpa [hstep] using zero.insert_step key 1
    cases h with
    | matched i hmatch hfirst =>
      obtain rfl : i = 0 := hzero (fun j => hmatch) hfirst
      have hkey : Key.zeroStr.strncpy = key.strncpy := (Bucket.matches_iff _ _ _).mp hmatch
      exact ⟨by simpa using hkey,by simp⟩
    | filled i hnew he hfirst =>
      obtain rfl : i = 0 := hzero hempty hfirst
      exact ⟨by simp,by simp⟩
    | rejected m hnew hfull hmin hstay => exact absurd (hempty 0) (hfull 0)
    | evicted m hnew hfull hmin hswap => exact absurd (hempty 0) (hfull 0)

end Bucket

namespace HeavyPart

theorem insertAll_flowOk (h : Hashing) (keys : List Key) (hlen : keys.length < 2^31)
    (hkeys : ∀ key ∈ keys, key.Whole) (pos : Fin h.size) :
    ((insertAll h keys).1.buckets pos).FlowOk pos keys := by
  refine insertAll_bucket_rule (fun keys => keys.length < 2^31 ∧ ∀ key ∈ keys, key.Whole)
    (fun keys _ b => b.FlowOk pos keys) ?_ (Bucket.FlowOk.zero pos)
    (fun keys _ b key _ _ hb => hb.mono key) ?_ keys ⟨hlen,hkeys⟩
  · rintro keys key ⟨hlen,hkeys⟩
    rw [List.length_append, List.length_singleton] at hlen
    exact ⟨by omega,fun k hk => hkeys k (by simp [hk])⟩
  · rintro keys _ b key b' r ⟨hlen,hkeys⟩ hpos hb hstep
    rw [List.length_append, List.length_singleton] at hlen
    exact hb.step (hkeys key (by simp)) hpos hlen hstep

end HeavyPart

variable {hh lh : Hashing}

/-- What a sketch reached by inserting `keys` owes to the flows behind them. -/
structure FlowIdentity (keys : List Key) (s : ElasticSketch hh lh) : Prop where
  stored : ∀ pos i, (s.heavyPart.buckets pos).slot i ≠ 0 →
    (s.heavyPart.buckets pos).key i ∈ keys ∧ hh.pos ((s.heavyPart.buckets pos).key i) = pos
  counted : ∀ pos i, (s.heavyPart.buckets pos).slot i ≠ 0 →
    count ((s.heavyPart.buckets pos).slot i) ≤ keys.count ((s.heavyPart.buckets pos).key i)
  found : ∀ pos i, (s.heavyPart.buckets pos).slot i ≠ 0 →
    s.heavyPart.query ((s.heavyPart.buckets pos).key i) = (s.heavyPart.buckets pos).slot i
  unshared : ∀ k ∈ keys, ∀ l ∈ keys, ∀ pos i, (s.heavyPart.buckets pos).Matches k i →
    (s.heavyPart.buckets pos).Matches l i → k = l
  reported : ∀ (octet : Fin 256) (buffers : ElasticSketch.Buffers hh) (log2 : ℤ → ℤ)
    (quintet : FiveTuple) (packet : PktDat),
    .pushHeavy quintet packet ∈ processData log2 ⟨octet,s,buffers⟩ →
      ∃ key ∈ keys, FiveTuple.ofKey key = quintet

/-- A reported entry comes from a slot with a nonzero counter. -/
theorem pushHeavy_mem {R : Type*} [Ring R] {log2 : ℤ → R} {c : Client hh lh} {quintet : FiveTuple}
    {packet : PktDat} (h : .pushHeavy quintet packet ∈ processData log2 c) :
    ∃ pos i, (c.sketch.heavyPart.buckets pos).slot i ≠ 0 ∧
      quintet = FiveTuple.ofKey ((c.sketch.heavyPart.buckets pos).key i) := by
  simp only [processData, List.mem_cons, List.mem_append, lightSections, List.mem_map,
    heavySections, List.mem_flatMap, List.mem_finRange, true_and, slotSections, reduceCtorEq,
    false_or, and_false, exists_false] at h
  obtain ⟨pos,i,hmem⟩ := h
  refine ⟨pos,i,?_⟩
  rcases hmem with hmem | hmem
  · simp only [estimateSections] at hmem
    split_ifs at hmem <;> simp at hmem
  · simp only [valueSections] at hmem
    split_ifs at hmem with hval
    · simp only [List.mem_cons, reduceCtorEq, Section.pushHeavy.injEq, List.not_mem_nil, or_false,
        false_or] at hmem
      refine ⟨fun hzero => hval ?_,hmem.1⟩
      simp [mergedVal, hzero, highestBitIs1, getCounterVal]
    · simp at hmem

theorem flowIdentity_of_whole (keys : List Key) (hlen : keys.length < 2^31)
    (hkeys : ∀ key ∈ keys, key.Whole) :
    ∃ s : ElasticSketch hh lh, ElasticSketch.insertAll hh lh keys = some s ∧
      FlowIdentity keys s := by
  obtain ⟨s,hrun,-,-⟩ := @ElasticSketch.mass_le_sum hh lh (fun _ => 1) keys hlen fun _ _ => rfl
  have hflow (pos : Fin hh.size) : (s.heavyPart.buckets pos).FlowOk pos keys := by
    rw [ElasticSketch.heavyPart_of_insertAll keys s hrun]
    exact HeavyPart.insertAll_flowOk hh keys hlen hkeys pos
  refine ⟨s,hrun,⟨fun pos i hi => ?_,fun pos i _ => (hflow pos).count_le i,fun pos i hi => ?_,?_,?_⟩⟩
  · obtain ⟨hpos,hmem,-⟩ := (hflow pos).counted i hi
    exact ⟨hmem,hpos⟩
  · rw [HeavyPart.query, ((hflow pos).counted i hi).1]
    exact (hflow pos).query_stored hi
  · intro k hk l hl pos i hki hli
    rw [(hflow pos).matches_iff (hkeys k hk)] at hki
    rw [(hflow pos).matches_iff (hkeys l hl)] at hli
    exact hki.symm.trans hli
  · intro octet buffers log2 quintet packet hmem
    obtain ⟨pos,i,hi,rfl⟩ := pushHeavy_mem hmem
    exact ⟨_,((hflow pos).counted i hi).2.1,rfl⟩

/-- After one packet, slot 0 of its bucket counts it under what `strncpy` keeps of its key. -/
theorem bucket_of_single {key : Key} {s : ElasticSketch hh lh}
    (hrun : ElasticSketch.insertAll hh lh [key] = some s) :
    (s.bucket key).key 0 = key.strncpy ∧ (s.bucket key).slot 0 = 1 := by
  have hheavy : s.bucket key = (Bucket.zero.insert key 1).1 := by
    rw [ElasticSketch.bucket, ElasticSketch.heavyPart_of_insertAll [key] s hrun]
    simp [HeavyPart.insertAll, HeavyPart.recordInsert, HeavyPart.insert]
  rw [hheavy]
  exact Bucket.zero_insert key

theorem whole_of_flowIdentity {key : Key} {s : ElasticSketch hh lh}
    (hrun : ElasticSketch.insertAll hh lh [key] = some s) (h : FlowIdentity [key] s) :
    key.Whole := by
  obtain ⟨hkey,hslot⟩ := bucket_of_single hrun
  rw [ElasticSketch.bucket] at hkey hslot
  have hstored := (h.stored (hh.pos key) 0 (by rw [hslot]; decide)).1
  rw [hkey, List.mem_singleton] at hstored
  exact (Key.strncpy_eq_self_iff key).mp hstored

/-- Flow identity holds in every run over a set of keys exactly when `strncpy` copies
every key of the set whole. -/
theorem flowIdentity_iff_whole (hh lh : Hashing) (K : Key → Prop) :
    (∀ keys : List Key, keys.length < 2^31 → (∀ key ∈ keys, K key) →
      ∃ s : ElasticSketch hh lh, ElasticSketch.insertAll hh lh keys = some s ∧
        FlowIdentity keys s) ↔ ∀ key, K key → key.Whole := by
  constructor
  · intro h key hkey
    obtain ⟨s,hrun,hs⟩ := h [key] (by simp) (by simpa using hkey)
    exact whole_of_flowIdentity hrun hs
  · intro hwhole keys hlen hkeys
    exact flowIdentity_of_whole keys hlen fun key hk => hwhole key (hkeys key hk)

/-- A TCP packet from 10.0.0.1:4000 to 10.0.0.2:80. -/
def tenNetKey : Key := ⟨[10,0,0,1,10,0,0,2,15,160,0,80,6],by decide⟩

/-- One such packet breaks flow identity: the zero byte of its address cuts the key. -/
theorem flowIdentity_fails_tenNet :
    ¬ ∃ s : ElasticSketch ⟨64,by decide,by decide,fun _ => 0⟩ ⟨8448,by decide,by decide,fun _ => 0⟩,
      ElasticSketch.insertAll _ _ [tenNetKey] = some s ∧ FlowIdentity [tenNetKey] s := by
  rintro ⟨s,hrun,hs⟩
  exact absurd (whole_of_flowIdentity hrun hs) (by decide)

end SketchMonitor
