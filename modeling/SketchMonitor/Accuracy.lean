import SketchMonitor.PacketMass

/-!
# Accuracy of the sketch

For keys without zero bytes the string functions compare and copy all 13 bytes. A
flow is then tracked between its heavy slot and its light counter: what the flag
of the slot, the presence of an empty slot and a missing slot say about the
number of its packets. The other direction is the mass at one light position.
-/

namespace SketchMonitor
namespace ElasticSketch

variable {hh lh : Hashing}

/-- What the bucket `b` and the light counter `c` of a flow know of its `n` packets. -/
structure Tracked (k : Key) (n : ℕ) (b : Bucket) (c : ℕ) : Prop where
  unique : ∀ i j, b.key i = k → b.key j = k → i = j
  unflagged : ∀ i, b.key i = k → highestBitIs1 (b.slot i) = false → n ≤ count (b.slot i)
  flagged : ∀ i, b.key i = k → highestBitIs1 (b.slot i) = true →
    n ≤ count (b.slot i) + c ∨ 255 ≤ c
  absent : (∀ i, b.key i ≠ k) → n ≤ c ∨ 255 ≤ c
  unseen : ∀ j, b.key j = Key.zeroStr → (∀ i, b.key i ≠ k) → n = 0

namespace Tracked

variable {k key : Key} {n : ℕ} {b b' : Bucket} {c c' : ℕ}

theorem zero {k : Key} (hk : k ≠ Key.zeroStr) : Tracked k 0 Bucket.zero 0 where
  unique _ _ hi := absurd hi.symm hk
  unflagged _ _ _ := Nat.zero_le _
  flagged _ _ _ := .inl (Nat.zero_le _)
  absent _ := .inl le_rfl
  unseen _ _ _ := rfl

/-- Light counters never fall, and a larger one keeps every bound. -/
theorem mono (hb : Tracked k n b c) (hc : c ≤ c') : Tracked k n b c' where
  unique := hb.unique
  unflagged := hb.unflagged
  flagged i hi hf := by
    rcases hb.flagged i hi hf with h | h
    · exact .inl (by omega)
    · exact .inr (by omega)
  absent ha := by
    rcases hb.absent ha with h | h
    · exact .inl (by omega)
    · exact .inr (by omega)
  unseen := hb.unseen

/-- Only the guard has changed. -/
theorem of_agree (hb : Tracked k n b c) (hkeys : b'.key = b.key) (hslots : b'.slot = b.slot) :
    Tracked k n b' c := by
  obtain ⟨hunique,hunflagged,hflagged,habsent,hunseen⟩ := hb
  rw [← hkeys, ← hslots] at *
  exact ⟨hunique,hunflagged,hflagged,habsent,hunseen⟩

/-- A packet of another flow counted in its slot. -/
theorem matched_ne (hb : Tracked k n b c) {i : Fin maxValidCounter} (hi : b.key i ≠ k) (v : UInt32) :
    Tracked k n (b.setVal i v) c where
  unique := hb.unique
  unflagged j hj hf := by
    have hji : j ≠ i := fun h => hi (h ▸ hj)
    simp only [Bucket.setVal_slot, Function.update_of_ne hji] at hf ⊢
    exact hb.unflagged j hj hf
  flagged j hj hf := by
    have hji : j ≠ i := fun h => hi (h ▸ hj)
    simp only [Bucket.setVal_slot, Function.update_of_ne hji] at hf ⊢
    exact hb.flagged j hj hf
  absent := hb.absent
  unseen := hb.unseen

/-- A packet of the flow counted in its own slot. -/
theorem matched_self (hb : Tracked k n b c) {i : Fin maxValidCounter} (hi : b.key i = k)
    (hroom : count (b.slot i) + 1 < 2^31) : Tracked k (n+1) (b.setVal i (b.slot i + 1)) c where
  unique := hb.unique
  unflagged j hj hf := by
    obtain rfl : j = i := hb.unique j i hj hi
    simp only [Bucket.setVal_slot, Function.update_self, highestBitIs1_add_one hroom,
      count_add_one hroom] at hf ⊢
    exact Nat.succ_le_succ (hb.unflagged j hj hf)
  flagged j hj hf := by
    obtain rfl : j = i := hb.unique j i hj hi
    simp only [Bucket.setVal_slot, Function.update_self, highestBitIs1_add_one hroom,
      count_add_one hroom] at hf ⊢
    have h := hb.flagged j hj hf
    omega
  absent ha := absurd hi (ha i)
  unseen j _ ha := absurd hi (ha i)

/-- Another flow takes over the slot `i`, which was not that of `k` or is handed off. -/
theorem replaced_ne (hb : Tracked k n b c) (i : Fin maxValidCounter) (v : UInt32)
    (hkey : key ≠ k) (hzero : key ≠ Key.zeroStr) (hc : c ≤ c')
    (hout : b.key i = k → (∀ j, b.key j ≠ Key.zeroStr) ∧ (n ≤ c' ∨ 255 ≤ c'))
    (hkeys : b'.key = Function.update b.key i key) (hslots : b'.slot = Function.update b.slot i v) :
    Tracked k n b' c' := by
  have hother {j : Fin maxValidCounter} (hj : b'.key j = k) :
      j ≠ i ∧ b.key j = k ∧ b'.slot j = b.slot j := by
    have hji : j ≠ i := by
      rintro rfl
      rw [hkeys, Function.update_self] at hj
      exact hkey hj
    rw [hkeys, Function.update_of_ne hji] at hj
    exact ⟨hji,hj,by rw [hslots, Function.update_of_ne hji]⟩
  have hmono := hb.mono hc
  -- without a slot of its own now, the flow either had none before or has just lost it
  have hgone (ha : ∀ j, b'.key j ≠ k) : b.key i = k ∨ ∀ j, b.key j ≠ k := by
    by_cases hi : b.key i = k
    · exact .inl hi
    · refine .inr fun j hj => ?_
      have hji : j ≠ i := fun h => hi (h ▸ hj)
      exact ha j (by rw [hkeys, Function.update_of_ne hji, hj])
  refine ⟨?_,?_,?_,?_,?_⟩
  · intro j l hj hl
    exact hb.unique j l (hother hj).2.1 (hother hl).2.1
  · intro j hj hf
    rw [(hother hj).2.2] at hf ⊢
    exact hmono.unflagged j (hother hj).2.1 hf
  · intro j hj hf
    rw [(hother hj).2.2] at hf ⊢
    exact hmono.flagged j (hother hj).2.1 hf
  · intro ha
    rcases hgone ha with hi | ha
    · exact (hout hi).2
    · exact hmono.absent ha
  · intro j hj ha
    have hji : j ≠ i := by
      rintro rfl
      rw [hkeys, Function.update_self] at hj
      exact hzero hj
    rw [hkeys, Function.update_of_ne hji] at hj
    rcases hgone ha with hi | ha
    · exact absurd hj ((hout hi).1 j)
    · exact hb.unseen j hj ha

/-- The flow takes over a slot for its newest packet. -/
theorem replaced_self (i : Fin maxValidCounter) (v : UInt32)
    (hnew : ∀ j, b.key j ≠ k) (hv : count v = 1)
    (hn : if highestBitIs1 v then n ≤ c ∨ 255 ≤ c else n = 0)
    (hkeys : b'.key = Function.update b.key i k) (hslots : b'.slot = Function.update b.slot i v) :
    Tracked k (n+1) b' c := by
  have hself : b'.key i = k := by rw [hkeys, Function.update_self]
  have hown {j : Fin maxValidCounter} (hj : b'.key j = k) : j = i := by
    by_contra hji
    rw [hkeys, Function.update_of_ne hji] at hj
    exact hnew j hj
  have hslot : b'.slot i = v := by rw [hslots, Function.update_self]
  refine ⟨fun j l hj hl => (hown hj).trans (hown hl).symm,?_,?_,?_,?_⟩
  · intro j hj hf
    obtain rfl := hown hj
    rw [hslot] at hf ⊢
    simp only [hf, Bool.false_eq_true, if_false] at hn
    omega
  · intro j hj hf
    obtain rfl := hown hj
    rw [hslot] at hf ⊢
    simp only [hf, if_true] at hn
    omega
  · exact fun ha => absurd hself (ha i)
  · exact fun _ _ ha => absurd hself (ha i)

/-- A flow without a slot in a bucket without empty slots lives in its light counter. -/
theorem of_absent (hnone : ∀ j, b.key j ≠ k) (hfull : ∀ j, b.key j ≠ Key.zeroStr)
    (hn : n ≤ c ∨ 255 ≤ c) : Tracked k n b c where
  unique i _ hi := absurd hi (hnone i)
  unflagged i hi := absurd hi (hnone i)
  flagged i hi := absurd hi (hnone i)
  absent _ := hn
  unseen j hj := absurd hj (hfull j)

/-- Handing off the slot of the flow leaves its packets to the light counter. -/
theorem handed_off (hb : Tracked k n b c) {m : Fin maxValidCounter} (hm : b.key m = k)
    (hc : c' = if highestBitIs1 (b.slot m) then min (c + count (b.slot m)) 255
      else max c (min (count (b.slot m)) 255)) : n ≤ c' ∨ 255 ≤ c' := by
  split_ifs at hc with hflag
  · have h := hb.flagged m hm hflag
    omega
  · have h := hb.unflagged m hm (by simpa using hflag)
    omega

end Tracked

/-- A packet whose flow does not have its bucket here changes nothing in it. -/
theorem UnitStep.bucket_of_ne {s t : ElasticSketch hh lh} {key k : Key} (hstep : UnitStep s key t)
    (hpos : hh.pos k ≠ hh.pos key) : t.bucket k = s.bucket k := by
  cases hstep <;> exact HeavyPart.setBucket_of_ne _ _ hpos

theorem light_le_255 (s : ElasticSketch hh lh) (k : Key) : s.light k ≤ 255 := by
  have := (s.lightPart.counters (lh.pos k)).isLt
  unfold light
  omega

theorem light_le_setCounter (s : ElasticSketch hh lh) (hp : HeavyPart hh) {key : Key} (k : Key)
    {v : Fin 256} (hv : s.light key ≤ v) :
    s.light k ≤ light ⟨hp,s.lightPart.setCounter (lh.pos key) v⟩ k := by
  unfold light at *
  by_cases h : lh.pos k = lh.pos key
  · simpa [LightPart.setCounter, h] using hv
  · simp [LightPart.setCounter, h]

theorem light_setCounter (s : ElasticSketch hh lh) (hp : HeavyPart hh) (k : Key) (v : Fin 256) :
    light ⟨hp,s.lightPart.setCounter (lh.pos k) v⟩ k = v := by
  simp [light, LightPart.setCounter]

/-- No packet lowers a light counter. -/
theorem UnitStep.light_le {s t : ElasticSketch hh lh} {key : Key} (hstep : UnitStep s key t)
    (k : Key) : s.light k ≤ t.light k := by
  cases hstep with
  | matched i hmatch hfirst => exact le_rfl
  | filled i hnew hempty hfirst => exact le_rfl
  | rejected hnew hfull v hv =>
    have hle := s.light_le_255 key
    exact s.light_le_setCounter _ k (by omega)
  | evicted m hnew hfull v hv =>
    have hle := s.light_le_255 ((s.bucket key).key m).strncpy
    refine s.light_le_setCounter _ k ?_
    split_ifs at hv <;> omega

/-- One packet, seen from the bucket and the light counter of a flow that shares
the bucket of the packet's own flow. -/
theorem tracked_unitStep_shared {s t : ElasticSketch hh lh} {k key : Key} {n : ℕ}
    (hstep : UnitStep s key t) (hs : s.StoredCopied) (hk : k.NoZeroByte) (hkey : key.NoZeroByte)
    (hroom : ∀ i, count ((s.bucket key).slot i) + 1 < 2^31)
    (hinv : Tracked k n (s.bucket key) (s.light k)) :
    Tracked k (n + if key = k then 1 else 0) (t.bucket key) (t.light k) := by
  have hmatches (i) : (s.bucket key).Matches key i ↔ (s.bucket key).key i = key :=
    Bucket.matches_iff_of_copied (hs _ i) hkey.whole
  have hreadsEmpty (i) : (s.bucket key).ReadsEmpty i ↔ (s.bucket key).key i = Key.zeroStr :=
    Bucket.readsEmpty_iff_of_copied (hs _ i)
  have hcopy : key.strncpy = key := (Key.strncpy_eq_self_iff key).mpr hkey.whole
  have hgrow := hstep.light_le k
  have habsent (hnew : ∀ j, ¬ (s.bucket key).Matches key j) (hself : key = k) (j) :
      (s.bucket key).key j ≠ k := fun hj => hnew j ((hmatches j).mpr (hj.trans hself.symm))
  have hbucket (b : Bucket) (l : LightPart lh) :
      bucket ⟨s.heavyPart.setBucket (hh.pos key) b,l⟩ key = b := HeavyPart.setBucket_self _ _ _
  cases hstep with
  | matched i hmatch hfirst =>
    have hi : (s.bucket key).key i = key := (hmatches i).mp hmatch
    rw [hbucket]
    split_ifs with hself
    · exact hinv.matched_self (hi.trans hself) (hroom i)
    · exact hinv.matched_ne (hi.symm ▸ hself) _
  | filled i hnew hempty hfirst =>
    have hi : (s.bucket key).key i = Key.zeroStr := (hreadsEmpty i).mp hempty
    rw [hbucket, hcopy]
    split_ifs with hself
    · subst hself
      have hzero : n = 0 := hinv.unseen i hi (habsent hnew rfl)
      exact Tracked.replaced_self i 1 (habsent hnew rfl) rfl (by rwa [if_neg (by decide)])
        (by simp) (by simp)
    · refine hinv.replaced_ne i 1 hself hkey.ne_zeroStr hgrow (fun hik => ?_) (by simp) (by simp)
      exact absurd (hik.symm.trans hi) hk.ne_zeroStr
  | rejected hnew hfull v hv =>
    have hocc (j) : (s.bucket key).key j ≠ Key.zeroStr := fun hj => hfull j ((hreadsEmpty j).mpr hj)
    rw [hbucket]
    refine Tracked.of_agree ?_ (Bucket.setGuard_key _ _) (Bucket.setGuard_slot _ _)
    split_ifs with hself
    · subst hself
      rw [light_setCounter, hv]
      have hle := hinv.absent (habsent hnew rfl)
      exact Tracked.of_absent (habsent hnew rfl) hocc (by omega)
    · exact hinv.mono hgrow
  | evicted m hnew hfull v hv =>
    have hocc (j) : (s.bucket key).key j ≠ Key.zeroStr := fun hj => hfull j ((hreadsEmpty j).mpr hj)
    rw [hbucket, hcopy]
    split_ifs with hself
    · subst hself
      have hle := (hinv.mono hgrow).absent (habsent hnew rfl)
      exact Tracked.replaced_self m 0x80000001 (habsent hnew rfl) rfl (by rwa [if_pos (by decide)])
        (by simp) (by simp)
    · refine hinv.replaced_ne m 0x80000001 hself hkey.ne_zeroStr hgrow (fun hmk => ⟨hocc,?_⟩)
        (by simp) (by simp)
      have hswap : ((s.bucket key).key m).strncpy = k := (hs _ m).trans hmk
      rw [hswap] at hv ⊢
      rw [light_setCounter]
      exact hinv.handed_off hmk hv

theorem tracked_unitStep {s t : ElasticSketch hh lh} {k key : Key} {n : ℕ} (hstep : UnitStep s key t)
    (hs : s.StoredCopied) (hk : k.NoZeroByte) (hkey : key.NoZeroByte)
    (hroom : ∀ i, count ((s.bucket key).slot i) + 1 < 2^31)
    (hinv : Tracked k n (s.bucket k) (s.light k)) :
    Tracked k (n + if key = k then 1 else 0) (t.bucket k) (t.light k) := by
  by_cases hpos : hh.pos k = hh.pos key
  · have hsame (u : ElasticSketch hh lh) : u.bucket k = u.bucket key :=
      congrArg u.heavyPart.buckets hpos
    rw [hsame] at hinv ⊢
    exact tracked_unitStep_shared hstep hs hk hkey hroom hinv
  · have hne : key ≠ k := fun h => hpos (h ▸ rfl)
    rw [hstep.bucket_of_ne hpos, if_neg hne]
    exact hinv.mono (hstep.light_le k)

/-- Every flow is tracked after every run. -/
theorem insertAll_tracked (hh lh : Hashing) (keys : List Key) (hlen : keys.length < 2^31)
    (hkeys : ∀ key ∈ keys, key.NoZeroByte) :
    ∃ s : ElasticSketch hh lh, insertAll hh lh keys = some s ∧ RunOk keys s ∧
      ∀ k : Key, k.NoZeroByte → Tracked k (keys.count k) (s.bucket k) (s.light k) := by
  refine insertAll_rule (fun keys => ∀ key ∈ keys, key.NoZeroByte)
    (fun keys s => ∀ k : Key, k.NoZeroByte → Tracked k (keys.count k) (s.bucket k) (s.light k))
    (fun keys key hok k hk => hok k (by simp [hk])) (fun k hk => Tracked.zero hk.ne_zeroStr) ?_
    keys hlen hkeys
  intro keys key s t hok hlen hs hinv hunit k hk
  have h := tracked_unitStep hunit hs.copied hk (hok key (by simp)) (hs.slot_room hlen) (hinv k hk)
  simpa [List.count_append, List.count_singleton] using h

/-- What a lookup reads: the slot of the flow and, if that is missing or flagged, the
light counter. -/
theorem query_cases (s : ElasticSketch hh lh) {k : Key} (hs : s.StoredCopied) (hk : k.NoZeroByte)
    (hmass : s.totalMass < 2^31) :
    (∃ i, (s.bucket k).key i = k ∧ highestBitIs1 ((s.bucket k).slot i) = true ∧
        s.query k = count ((s.bucket k).slot i) + s.light k) ∨
      (∃ i, (s.bucket k).key i = k ∧ highestBitIs1 ((s.bucket k).slot i) = false ∧
        count ((s.bucket k).slot i) ≤ s.query k ∧
        s.query k ≤ count ((s.bucket k).slot i) + s.light k) ∨
      (∀ i, (s.bucket k).key i ≠ k) ∧ s.query k = s.light k := by
  have hmatches (i) : (s.bucket k).Matches k i ↔ (s.bucket k).key i = k :=
    Bucket.matches_iff_of_copied (hs _ i) hk.whole
  have hroom (i : Fin maxValidCounter) : count ((s.bucket k).slot i) + s.light k < 2^31 :=
    (s.count_add_counter_le (hh.pos k) i (lh.pos k)).trans_lt hmass
  by_cases hex : ∃ i, (s.bucket k).Matches k i
  · obtain ⟨i,hi,hfirst⟩ := Bucket.exists_first hex
    have hslot := Bucket.query_of_first hi hfirst
    have hquery := s.query_of_small k (by rw [hslot]; exact hroom i)
    rw [hslot] at hquery
    cases hflag : highestBitIs1 ((s.bucket k).slot i) with
    | true =>
      refine .inl ⟨i,(hmatches i).mp hi,hflag,?_⟩
      rw [hquery, if_pos (.inr hflag)]
    | false =>
      refine .inr (.inl ⟨i,(hmatches i).mp hi,hflag,?_⟩)
      rw [hquery]
      split_ifs <;> omega
  · have hslot := Bucket.query_of_absent (not_exists.mp hex)
    have hzero : count 0 = 0 := rfl
    have hquery := s.query_of_small k (by rw [hslot, hzero]; have := hroom 0; omega)
    refine .inr (.inr ⟨fun i hi => hex ⟨i,(hmatches i).mpr hi⟩,?_⟩)
    rw [hquery, hslot, if_pos (.inl rfl), hzero]
    simp

/-- A lookup never answers less than the flow, short of a saturated light counter. -/
theorem Tracked.le_query {s : ElasticSketch hh lh} {k : Key} {n : ℕ} (hs : s.StoredCopied)
    (hk : k.NoZeroByte) (hmass : s.totalMass < 2^31) (h : Tracked k n (s.bucket k) (s.light k)) :
    (s.light k ≠ 255 → (n : ℤ) ≤ s.query k) ∧ (min n 255 : ℕ) ≤ s.query k := by
  have hle := s.light_le_255 k
  rcases s.query_cases hs hk hmass with ⟨i,hi,hflag,hquery⟩ | ⟨i,hi,hflag,hquery,-⟩ | ⟨hnone,hquery⟩
  · have hn := h.flagged i hi hflag
    omega
  · have hn := h.unflagged i hi hflag
    omega
  · have hn := h.absent hnone
    omega

/-- A lookup never answers more than the mass at the light position of the flow. -/
theorem query_le_mass {s : ElasticSketch hh lh} {k : Key} (hs : s.StoredCopied)
    (hk : k.NoZeroByte) (hmass : s.totalMass < 2^31) :
    s.query k ≤ s.mass fun p => if p = lh.pos k then 1 else 0 := by
  have hslot (i : Fin maxValidCounter) := s.slotMass_add_le_mass
    (fun p => if p = lh.pos k then 1 else 0) (hh.pos k) i (lh.pos k)
  have hfound {i : Fin maxValidCounter} (hi : (s.bucket k).key i = k) :
      count ((s.bucket k).slot i) + s.light k ≤ s.mass fun p => if p = lh.pos k then 1 else 0 := by
    have hle := hslot i
    change slotMass _ (s.bucket k) i + _ ≤ _ at hle
    simpa [slotMass, hi, light] using hle
  rcases s.query_cases hs hk hmass with ⟨i,hi,-,hquery⟩ | ⟨i,hi,-,-,hquery⟩ | ⟨-,hquery⟩
  · have hle := hfound hi
    omega
  · have hle := hfound hi
    omega
  · have hle : s.light k ≤ s.mass fun p => if p = lh.pos k then 1 else 0 :=
      (Nat.le_add_left _ _).trans (by simpa [light] using hslot 0)
    omega

/-- After any run over keys without zero bytes, the answer for a flow lies between
the number of its packets and the number of packets at its light position. -/
theorem query_two_sided (hh lh : Hashing) (keys : List Key) (hlen : keys.length < 2^31)
    (hkeys : ∀ key ∈ keys, key.NoZeroByte) :
    ∃ s : ElasticSketch hh lh, insertAll hh lh keys = some s ∧ ∀ k : Key, k.NoZeroByte →
      (s.light k ≠ 255 → (keys.count k : ℤ) ≤ s.query k) ∧
      (min (keys.count k) 255 : ℕ) ≤ s.query k ∧
      s.query k ≤ keys.countP fun key => key = k ∨ lh.pos key = lh.pos k := by
  obtain ⟨s,hrun,hok,htracked⟩ := insertAll_tracked hh lh keys hlen hkeys
  have hmass : s.totalMass < 2^31 := hok.mass_le.trans_lt hlen
  refine ⟨s,hrun,fun k hk => ?_⟩
  have hlower := (htracked k hk).le_query hok.copied hk hmass
  refine ⟨hlower.1,hlower.2,(query_le_mass hok.copied hk hmass).trans ?_⟩
  obtain ⟨s',hrun',-,hsum⟩ := @mass_le_sum hh lh
    (fun p => if p = lh.pos k then 1 else 0) keys hlen fun key hkey => by
      rw [(Key.strncpy_eq_self_iff key).mpr (hkeys key hkey).whole]
  obtain rfl : s = s' := Option.some.inj (hrun.symm.trans hrun')
  rw [FiniteSums.sum_map_indicator fun key => lh.pos key = lh.pos k] at hsum
  exact Int.ofNat_le.mpr (hsum.trans (List.countP_mono_left fun key _ h => by
    simp only [decide_eq_true_eq] at h ⊢
    exact .inr h))

theorem query_two_sided_two_flows :
    ∃ s : ElasticSketch ⟨1,by decide,by decide,fun _ => 0⟩ ⟨3,by decide,by decide,fun _ => 2⟩,
      insertAll _ _ [Key.memset 7,Key.memset 9,Key.memset 7] = some s ∧
      (s.light (Key.memset 7) ≠ 255 → (2 : ℤ) ≤ s.query (Key.memset 7)) ∧
      s.query (Key.memset 7) ≤ 3 := by
  have hseven : (Key.memset 7).NoZeroByte := Key.noZeroByte_memset (by decide)
  have hnine : (Key.memset 9).NoZeroByte := Key.noZeroByte_memset (by decide)
  obtain ⟨s,hrun,h⟩ := query_two_sided ⟨1,by decide,by decide,fun _ => 0⟩
    ⟨3,by decide,by decide,fun _ => 2⟩ [Key.memset 7,Key.memset 9,Key.memset 7] (by decide)
    (by simp [hseven, hnine])
  have hk := h (Key.memset 7) hseven
  exact ⟨s,hrun,hk.1,hk.2.2⟩

end ElasticSketch
end SketchMonitor
