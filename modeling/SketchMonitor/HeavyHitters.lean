import SketchMonitor.FlowIdentity
import SketchMonitor.Measurement

/-!
# The heavy hitter listing

`get_heavy_hitters` copies the key of every slot, occupied or not, and looks the copy up
from scratch. For keys that `strncpy` copies whole the lookup comes back to the slot,
whatever the counts have become. An unoccupied slot is looked up too, under the all-zero
key, and what it finds there is the light counter that this key shares with others.
-/

namespace SketchMonitor

namespace ElasticSketch

variable {hh lh : Hashing}

/-- `results` is passed by reference. -/
def getHeavyHitters (s : ElasticSketch hh lh) (threshold : ℤ) (results : List (Key × ℤ)) :
    List (Key × ℤ) :=
  (slots hh).foldl (fun results ij =>
    let key := (s.slotKey ij).strncpy
    let val := s.query key
    if val ≥ threshold then results ++ [(key,val)] else results) results

/-- The slot holds neither a key nor a count. -/
def Unoccupied (s : ElasticSketch hh lh) (ij : Fin hh.size × Fin maxValidCounter) : Prop :=
  s.slotKey ij = Key.zeroStr ∧ s.slotVal ij = 0

/-- A slot of the flow's bucket matches the flow and is occupied. -/
def Occupies (s : ElasticSketch hh lh) (key : Key) : Prop :=
  ∃ i, (s.bucket key).Matches key i ∧ ¬ s.Unoccupied (hh.pos key,i)

/-- The listing has one entry for each inserted flow that occupies a slot and reaches the
threshold, with its estimate, and no other entry. -/
structure HittersExact (keys : List Key) (s : ElasticSketch hh lh) (threshold : ℤ) : Prop where
  nodup : ((s.getHeavyHitters threshold []).map Prod.fst).Nodup
  mem_iff : ∀ key val, (key,val) ∈ s.getHeavyHitters threshold [] ↔
    key ∈ keys ∧ s.Occupies key ∧ threshold ≤ s.query key ∧ val = s.query key

/-- The all-zero key stays below the threshold, or it is the key of one slot at most, and
that slot holds a count. -/
def ZeroSlotsOk (s : ElasticSketch hh lh) (threshold : ℤ) : Prop :=
  s.query Key.zeroStr < threshold ∨
    (∀ ij, s.slotKey ij = Key.zeroStr → s.slotVal ij ≠ 0) ∧
      ∀ ij ij', s.slotKey ij = Key.zeroStr → s.slotKey ij' = Key.zeroStr → ij = ij'

theorem slots_nodup (hh : Hashing) : (slots hh).Nodup :=
  (List.nodup_finRange _).product (List.nodup_finRange _)

theorem foldl_push_back {α β : Type*} (p : α → Prop) [DecidablePred p] (f : α → β) (xs : List α)
    (ys : List β) : xs.foldl (fun ys x => if p x then ys ++ [f x] else ys) ys =
      ys ++ (xs.filter p).map f := by
  induction xs generalizing ys with
  | nil => simp
  | cons x xs ih => by_cases hx : p x <;> simp [hx, ih]

end ElasticSketch

namespace Bucket

/-- What holds of the bucket at `pos` after a run over keys that are copied whole, whatever
its counters have become. -/
structure KeysOk {h : Hashing} (pos : Fin h.size) (keys : List Key) (b : Bucket) : Prop where
  copied : ∀ i, (b.key i).strncpy = b.key i
  distinct : ∀ i j, b.key i = b.key j → b.key i ≠ Key.zeroStr → i = j
  inserted : ∀ i, b.key i ≠ Key.zeroStr ∨ b.slot i ≠ 0 → h.pos (b.key i) = pos ∧ b.key i ∈ keys

variable {h : Hashing} {pos : Fin h.size} {keys : List Key} {b b' : Bucket} {key : Key}

theorem KeysOk.zero (pos : Fin h.size) : KeysOk pos [] Bucket.zero where
  copied i := by simp
  distinct i j _ hi := absurd rfl hi
  inserted i hi := by simp at hi

theorem KeysOk.mono (hb : KeysOk pos keys b) (key : Key) : KeysOk pos (keys ++ [key]) b where
  copied := hb.copied
  distinct := hb.distinct
  inserted i hi := by
    obtain ⟨hpos,hmem⟩ := hb.inserted i hi
    exact ⟨hpos,List.mem_append_left _ hmem⟩

/-- A key that no slot holds takes over one slot. -/
theorem KeysOk.replace (hb : KeysOk pos keys b) (hkey : key.Whole) (hpos : h.pos key = pos)
    (i : Fin maxValidCounter) (v : UInt32) (hnew : ∀ j, b.key j ≠ key)
    (hkeys : b'.key = Function.update b.key i key) (hslots : b'.slot = Function.update b.slot i v) :
    KeysOk pos (keys ++ [key]) b' := by
  refine ⟨copied_replace hb.copied hkey hkeys,distinct_replace hb.distinct hnew hkeys,?_⟩
  intro j hj
  rw [hkeys, hslots, Function.update_apply, Function.update_apply] at hj
  rw [hkeys, Function.update_apply]
  split_ifs at hj ⊢ with hji
  · exact ⟨hpos,by simp⟩
  · exact (hb.mono key).inserted j hj

theorem KeysOk.step {r : InsertResult} (hb : KeysOk pos keys b) (hkey : key.Whole)
    (hpos : h.pos key = pos) (hstep : b.Step key 1 b' r) : KeysOk pos (keys ++ [key]) b' := by
  have hnewkey (hnew : ∀ j, ¬ b.Matches key j) (j) : b.key j ≠ key := fun hj =>
    hnew j ((matches_iff_of_copied (hb.copied j) hkey).mpr hj)
  have hwhole : key.strncpy = key := (Key.strncpy_eq_self_iff key).mpr hkey
  have hmono := hb.mono key
  cases hstep with
  | matched i hmatch hfirst =>
    have hi : b.key i = key := (matches_iff_of_copied (hb.copied i) hkey).mp hmatch
    refine ⟨hb.copied,hb.distinct,fun j hj => ?_⟩
    rw [setVal_key]
    by_cases hji : j = i
    · rw [hji, hi]
      exact ⟨hpos,by simp⟩
    · rw [setVal_key, setVal_slot, Function.update_of_ne hji] at hj
      exact hmono.inserted j hj
  | filled i hnew hempty hfirst =>
    exact hb.replace hkey hpos i 1 (hnewkey hnew) (by simp [hwhole]) (by simp)
  | rejected m hnew hfull hmin hstay =>
    exact ⟨hmono.copied,hmono.distinct,by simpa using hmono.inserted⟩
  | evicted m hnew hfull hmin hswap =>
    exact hb.replace hkey hpos m 0x80000001 (hnewkey hnew) (by simp [hwhole]) (by simp)

end Bucket

theorem HeavyPart.insertAll_keysOk (h : Hashing) (keys : List Key) (hkeys : ∀ key ∈ keys, key.Whole)
    (pos : Fin h.size) : ((insertAll h keys).1.buckets pos).KeysOk pos keys := by
  refine insertAll_bucket_rule (fun keys => ∀ key ∈ keys, key.Whole) (fun keys _ b => b.KeysOk pos keys)
    (fun keys key hkeys k hk => hkeys k (by simp [hk])) (Bucket.KeysOk.zero pos)
    (fun keys _ b key _ _ hb => hb.mono key) ?_ keys hkeys
  intro keys _ b key b' r hkeys hpos hb hstep
  exact hb.step (hkeys key (by simp)) hpos hstep

namespace ElasticSketch

variable {hh lh : Hashing} {keys : List Key} {s : ElasticSketch hh lh} {threshold : ℤ}

/-- What holds of the slots after a run over keys that are copied whole. -/
def SlotsOk (keys : List Key) (s : ElasticSketch hh lh) : Prop :=
  ∀ pos, (s.heavyPart.buckets pos).KeysOk pos keys

theorem slotsOk_of_insertAll (hkeys : ∀ key ∈ keys, key.Whole) (hrun : insertAll hh lh keys = some s) :
    SlotsOk keys s := by
  intro pos
  rw [heavyPart_of_insertAll keys s hrun]
  exact HeavyPart.insertAll_keysOk hh keys hkeys pos

theorem SlotsOk.slot_eq_of_key (h : SlotsOk keys s) {ij ij' : Fin hh.size × Fin maxValidCounter}
    (heq : s.slotKey ij = s.slotKey ij') (hne : s.slotKey ij ≠ Key.zeroStr) : ij = ij' := by
  obtain ⟨i,j⟩ := ij
  obtain ⟨i',j'⟩ := ij'
  obtain rfl : i = i' := by
    have hi := ((h i).inserted j (.inl hne)).1
    have hi' := ((h i').inserted j' (.inl fun hz => hne (heq.trans hz))).1
    exact hi.symm.trans ((congrArg hh.pos heq).trans hi')
  rw [(h i).distinct j j' heq hne]

/-- A key or a count in a slot belongs to a flow that occupies the slot. -/
theorem SlotsOk.occupies (h : SlotsOk keys s) {ij : Fin hh.size × Fin maxValidCounter}
    (hij : s.slotKey ij ≠ Key.zeroStr ∨ s.slotVal ij ≠ 0) :
    s.slotKey ij ∈ keys ∧ s.Occupies (s.slotKey ij) := by
  obtain ⟨i,j⟩ := ij
  obtain ⟨hpos,hmem⟩ := (h i).inserted j hij
  refine ⟨hmem,j,?_,?_⟩
  · rw [bucket, slotKey, hpos]
    exact (Bucket.matches_iff _ _ _).mpr rfl
  · rw [slotKey, hpos]
    rintro ⟨hkey,hval⟩
    exact hij.elim (· hkey) (· hval)

/-- A flow that is copied whole occupies only a slot that holds its key. -/
theorem SlotsOk.slotKey_of_matches (h : SlotsOk keys s) {key : Key} (hkey : key.Whole)
    {i : Fin maxValidCounter} (hi : (s.bucket key).Matches key i) : s.slotKey (hh.pos key,i) = key :=
  (Bucket.matches_iff_of_copied ((h (hh.pos key)).copied i) hkey).mp hi

theorem getHeavyHitters_eq (s : ElasticSketch hh lh) (threshold : ℤ) :
    s.getHeavyHitters threshold [] =
      ((slots hh).filter fun ij => threshold ≤ s.query (s.slotKey ij).strncpy).map fun ij =>
        ((s.slotKey ij).strncpy,s.query (s.slotKey ij).strncpy) :=
  foldl_push_back _ _ (slots hh) []

theorem SlotsOk.getHeavyHitters_eq (h : SlotsOk keys s) :
    s.getHeavyHitters threshold [] =
      ((slots hh).filter fun ij => threshold ≤ s.query (s.slotKey ij)).map fun ij =>
        (s.slotKey ij,s.query (s.slotKey ij)) := by
  have hcopied (ij) : (s.slotKey ij).strncpy = s.slotKey ij := (h ij.1).copied ij.2
  simp only [ElasticSketch.getHeavyHitters_eq, hcopied]

theorem mem_getHeavyHitters (h : SlotsOk keys s) {key : Key} {val : ℤ} :
    (key,val) ∈ s.getHeavyHitters threshold [] ↔
      ∃ ij, s.slotKey ij = key ∧ threshold ≤ s.query key ∧ val = s.query key := by
  rw [h.getHeavyHitters_eq, List.mem_map]
  constructor
  · rintro ⟨ij,hij,heq⟩
    obtain ⟨rfl,rfl⟩ := Prod.mk.inj heq
    exact ⟨ij,rfl,by simpa using (List.mem_filter.mp hij).2,rfl⟩
  · rintro ⟨ij,rfl,hle,rfl⟩
    exact ⟨ij,List.mem_filter.mpr ⟨mem_slots ij,by simpa using hle⟩,rfl⟩

theorem nodup_getHeavyHitters (h : SlotsOk keys s) :
    ((s.getHeavyHitters threshold []).map Prod.fst).Nodup ↔
      ∀ ij ij', threshold ≤ s.query (s.slotKey ij) → s.slotKey ij = s.slotKey ij' → ij = ij' := by
  rw [h.getHeavyHitters_eq, List.map_map,
    List.nodup_map_iff_inj_on ((slots_nodup hh).filter _)]
  constructor
  · intro hinj ij ij' hle heq
    have hmem {kl} (hkl : threshold ≤ s.query (s.slotKey kl)) :
        kl ∈ (slots hh).filter fun ij => threshold ≤ s.query (s.slotKey ij) :=
      List.mem_filter.mpr ⟨mem_slots kl,by simpa using hkl⟩
    exact hinj ij (hmem hle) ij' (hmem (heq ▸ hle)) heq
  · intro hinj ij hij ij' _ heq
    exact hinj ij ij' (by simpa using (List.mem_filter.mp hij).2) heq

/-- In an exact listing the all-zero key stands for one occupied slot, if it is listed. -/
theorem SlotsOk.zeroSlotsOk (h : SlotsOk keys s) (hexact : s.HittersExact keys threshold) :
    s.ZeroSlotsOk threshold := by
  have hzero : Key.zeroStr.Whole := (Key.strncpy_eq_self_iff _).mp Key.strncpy_zeroStr
  refine (lt_or_ge (s.query Key.zeroStr) threshold).imp id fun hle => ?_
  have huniq {ij ij'} (hij : s.slotKey ij = Key.zeroStr) (hij' : s.slotKey ij' = Key.zeroStr) :
      ij = ij' :=
    (nodup_getHeavyHitters h).mp hexact.nodup ij ij' (by rwa [hij]) (hij.trans hij'.symm)
  refine ⟨fun ij hij hval => ?_,fun ij ij' => huniq⟩
  have hlisted := (mem_getHeavyHitters h).mpr ⟨ij,hij,hle,rfl⟩
  obtain ⟨-,⟨i,hmatch,hocc⟩,-⟩ := (hexact.mem_iff _ _).mp hlisted
  have hi := h.slotKey_of_matches hzero hmatch
  rw [huniq hij hi] at hval
  exact hocc ⟨hi,hval⟩

theorem SlotsOk.hittersExact (h : SlotsOk keys s) (hkeys : ∀ key ∈ keys, key.Whole)
    (hok : s.ZeroSlotsOk threshold) : s.HittersExact keys threshold := by
  have hcount {ij} (hij : s.slotKey ij = Key.zeroStr) (hle : threshold ≤ s.query (s.slotKey ij)) :
      s.slotVal ij ≠ 0 ∧ ∀ ij', s.slotKey ij' = Key.zeroStr → ij = ij' := by
    rw [hij] at hle
    obtain ⟨hval,huniq⟩ := hok.resolve_left hle.not_gt
    exact ⟨hval ij hij,fun ij' => huniq ij ij' hij⟩
  constructor
  · refine (nodup_getHeavyHitters h).mpr fun ij ij' hle heq => ?_
    by_cases hij : s.slotKey ij = Key.zeroStr
    · exact (hcount hij hle).2 ij' (heq.symm.trans hij)
    · exact h.slot_eq_of_key heq hij
  · intro key val
    rw [mem_getHeavyHitters h]
    constructor
    · rintro ⟨ij,rfl,hle,rfl⟩
      have hij : s.slotKey ij ≠ Key.zeroStr ∨ s.slotVal ij ≠ 0 :=
        (ne_or_eq _ _).imp id fun hij => (hcount hij hle).1
      obtain ⟨hmem,hocc⟩ := h.occupies hij
      exact ⟨hmem,hocc,hle,rfl⟩
    · rintro ⟨hmem,⟨i,hmatch,-⟩,hle,rfl⟩
      exact ⟨_,h.slotKey_of_matches (hkeys key hmem) hmatch,hle,rfl⟩

/-- The slots with the all-zero key decide whether the listing is exact. -/
theorem SlotsOk.hittersExact_iff (h : SlotsOk keys s) (hkeys : ∀ key ∈ keys, key.Whole) :
    s.HittersExact keys threshold ↔ s.ZeroSlotsOk threshold :=
  ⟨h.zeroSlotsOk,h.hittersExact hkeys⟩

/-- A listed key is one that `strncpy` has written. -/
theorem whole_of_mem_getHeavyHitters {key : Key} {val : ℤ}
    (h : (key,val) ∈ s.getHeavyHitters threshold []) : key.Whole := by
  rw [getHeavyHitters_eq, List.mem_map] at h
  obtain ⟨ij,-,heq⟩ := h
  rw [← (Prod.mk.inj heq).1, ← Key.strncpy_eq_self_iff, Key.strncpy_strncpy]

/-- One packet of a flow is estimated at one, under any key. -/
theorem query_of_single {key : Key} (hrun : insertAll hh lh [key] = some s) :
    s.Occupies key ∧ s.query key = 1 := by
  obtain ⟨hkey,hslot⟩ := bucket_of_single hrun
  have hmatch : (s.bucket key).Matches key 0 := by
    rw [Bucket.matches_iff, hkey, Key.strncpy_strncpy]
  have hquery : s.heavyPart.query key = 1 :=
    (Bucket.query_of_first hmatch fun j hj => absurd hj (Fin.not_lt_zero j)).trans hslot
  refine ⟨⟨0,hmatch,fun hun => ?_⟩,?_⟩
  · exact absurd (hslot.symm.trans hun.2) (by decide)
  · have hplain : ¬ ((1 : UInt32) = 0 ∨ highestBitIs1 1 = true) := by decide
    simp only [query, hquery, if_neg hplain]
    decide

/-- After one packet whose key is not copied whole, the flow is missing from the listing. -/
theorem not_hittersExact_of_single {key : Key} (hrun : insertAll hh lh [key] = some s)
    (hkey : ¬ key.Whole) : ¬ s.HittersExact [key] 1 := by
  intro h
  obtain ⟨hocc,hquery⟩ := query_of_single hrun
  have hlisted := (h.mem_iff key 1).mpr ⟨by simp,hocc,hquery.ge,hquery.symm⟩
  exact hkey (whole_of_mem_getHeavyHitters hlisted)

/-- In every run over keys that `strncpy` copies whole, the listing is exact if and only if
the all-zero key is below the threshold or is the key of one occupied slot at most. One
packet with any other key makes the listing miss its flow. -/
theorem heavy_hitters_exact_iff (hh lh : Hashing) :
    (∀ (keys : List Key) (s : ElasticSketch hh lh), (∀ key ∈ keys, key.Whole) →
      insertAll hh lh keys = some s →
        ∀ threshold, s.HittersExact keys threshold ↔ s.ZeroSlotsOk threshold) ∧
      ∀ key : Key, ¬ key.Whole → ∃ s : ElasticSketch hh lh, insertAll hh lh [key] = some s ∧
        ¬ s.HittersExact [key] 1 := by
  constructor
  · intro keys s hkeys hrun threshold
    exact (slotsOk_of_insertAll hkeys hrun).hittersExact_iff hkeys
  · intro key hkey
    obtain ⟨s,hrun,-,-⟩ := @mass_le_sum hh lh (fun _ => 1) [key] (by simp) fun _ _ => rfl
    exact ⟨s,hrun,not_hittersExact_of_single hrun hkey⟩

/-- Eight flows fill bucket 1. The eighth is counted by the light part, at the position of
the all-zero key, and the seven empty slots of bucket 0 are listed. -/
theorem hittersExact_fails_empty_slots :
    let hh : Hashing := ⟨2,by decide,by decide,fun key => (key.bytes.getD 0 0).toUInt32⟩
    let lh : Hashing := ⟨5,by decide,by decide,fun key => (key.bytes.getD 0 0).toUInt32⟩
    let keys := [1,3,5,7,9,11,13,15].map Key.memset
    ∃ s : ElasticSketch hh lh, insertAll hh lh keys = some s ∧
      s.Unoccupied (⟨0,by decide⟩,⟨0,by decide⟩) ∧ ¬ s.HittersExact keys 1 := by
  intro hh lh keys
  obtain ⟨s,hrun,hempty,hlisted⟩ : ∃ s : ElasticSketch hh lh, insertAll hh lh keys = some s ∧
      s.Unoccupied (⟨0,by decide⟩,⟨0,by decide⟩) ∧ (Key.zeroStr,1) ∈ s.getHeavyHitters 1 [] :=
    ⟨_,(Option.some_get (by decide +kernel)).symm,⟨by decide +kernel,by decide +kernel⟩,
      by decide +kernel⟩
  refine ⟨s,hrun,hempty,fun h => ?_⟩
  exact absurd ((h.mem_iff _ _).mp hlisted).1 (by decide)

end ElasticSketch

end SketchMonitor
