import SketchMonitor.HeavyPart
import SketchMonitor.LightPart

/-!
# The elastic sketch

Packets rejected or evicted by the heavy part are handed to the light part. A
flagged evicted counter is added there, an unflagged one only raises the light
counter. `UnitStep` lists the four effects of inserting one packet.
-/

namespace SketchMonitor

structure ElasticSketch (hh lh : Hashing) where
  heavyPart : HeavyPart hh
  lightPart : LightPart lh

namespace ElasticSketch

variable {hh lh : Hashing}

/-- The constructor and `clear()`. -/
def clear (hh lh : Hashing) : ElasticSketch hh lh := ⟨HeavyPart.clear hh,LightPart.clear lh⟩

/-- The `switch` on the result of the heavy part: what the light part receives. -/
def handOff (l : LightPart lh) (key : Key) : InsertResult → Option (LightPart lh)
  | .kept => some l
  | .swapped swapKey swapVal =>
    if highestBitIs1 swapVal then l.insert swapKey (toInt32 (getCounterVal swapVal).toNat)
    else some (l.swapInsert swapKey (toInt32 swapVal.toNat))
  | .rejected => l.insert key 1

/-- The weight reaches the heavy part as `uint32_t`. -/
def insert (s : ElasticSketch hh lh) (key : Key) (f : ℤ) : Option (ElasticSketch hh lh) :=
  let r := s.heavyPart.insert key (UInt32.ofInt f)
  (handOff s.lightPart key r.2).map (⟨r.1,·⟩)

def query (s : ElasticSketch hh lh) (key : Key) : ℤ :=
  let heavyResult := s.heavyPart.query key
  if heavyResult = 0 ∨ highestBitIs1 heavyResult then
    let lightResult := s.lightPart.query key
    toInt32 (toInt32 (getCounterVal heavyResult).toNat + lightResult)
  else toInt32 heavyResult.toNat

/-- `insert(key, 1)` for each key in turn, from the empty sketch. -/
def insertAll (hh lh : Hashing) (keys : List Key) : Option (ElasticSketch hh lh) :=
  Runs.run (fun s key => s.insert key 1) (clear hh lh) keys

/-- The bucket a key hashes to. -/
def bucket (s : ElasticSketch hh lh) (key : Key) : Bucket := s.heavyPart.buckets (hh.pos key)

/-- The light counter of a key. -/
def light (s : ElasticSketch hh lh) (key : Key) : ℕ := s.lightPart.counters (lh.pos key)

/-- The four effects of inserting one packet. -/
inductive UnitStep (s : ElasticSketch hh lh) (key : Key) : ElasticSketch hh lh → Prop
  | matched (i : Fin maxValidCounter) (hmatch : (s.bucket key).Matches key i)
      (hfirst : ∀ j < i, ¬ (s.bucket key).Matches key j) :
      UnitStep s key
        ⟨s.heavyPart.setBucket (hh.pos key) ((s.bucket key).setVal i ((s.bucket key).slot i + 1)),
          s.lightPart⟩
  | filled (i : Fin maxValidCounter) (hnew : ∀ j, ¬ (s.bucket key).Matches key j)
      (hempty : (s.bucket key).ReadsEmpty i) (hfirst : ∀ j < i, ¬ (s.bucket key).ReadsEmpty j) :
      UnitStep s key
        ⟨s.heavyPart.setBucket (hh.pos key) (((s.bucket key).setKey i key.strncpy).setVal i 1),
          s.lightPart⟩
  | rejected (hnew : ∀ j, ¬ (s.bucket key).Matches key j)
      (hfull : ∀ j, ¬ (s.bucket key).ReadsEmpty j) (v : Fin 256)
      (hv : (v : ℕ) = min (s.light key + 1) 255) :
      UnitStep s key
        ⟨s.heavyPart.setBucket (hh.pos key) ((s.bucket key).setGuard ((s.bucket key).guard + 1)),
          s.lightPart.setCounter (lh.pos key) v⟩
  | evicted (m : Fin maxValidCounter) (hnew : ∀ j, ¬ (s.bucket key).Matches key j)
      (hfull : ∀ j, ¬ (s.bucket key).ReadsEmpty j) (v : Fin 256)
      (hv : (v : ℕ) = if highestBitIs1 ((s.bucket key).slot m)
        then min (s.light ((s.bucket key).key m).strncpy + count ((s.bucket key).slot m)) 255
        else max (s.light ((s.bucket key).key m).strncpy) (min (count ((s.bucket key).slot m)) 255)) :
      UnitStep s key
        ⟨s.heavyPart.setBucket (hh.pos key)
            ((((s.bucket key).setGuard 0).setKey m key.strncpy).setVal m 0x80000001),
          s.lightPart.setCounter (lh.pos ((s.bucket key).key m).strncpy) v⟩

theorem toInt32_count (v : UInt32) : toInt32 (getCounterVal v).toNat = count v := by
  have h := count_lt v
  exact toInt32_of_bounds (by omega) (by rw [count] at h; omega)

theorem handOff_swapped (l : LightPart lh) (key swapKey : Key) (c : UInt32)
    (hroom : count c + (l.counters (lh.pos swapKey) : ℕ) < 2^31) :
    ∃ v : Fin 256, handOff l key (.swapped swapKey c) = some (l.setCounter (lh.pos swapKey) v) ∧
      (v : ℕ) = if highestBitIs1 c
        then min ((l.counters (lh.pos swapKey) : ℕ) + count c) 255
        else max (l.counters (lh.pos swapKey) : ℕ) (min (count c) 255) := by
  simp only [handOff, toInt32_count]
  by_cases hflag : highestBitIs1 c = true
  · obtain ⟨v,hv,hval⟩ := l.insert_eq_setCounter swapKey (f := count c) (by omega) (by omega)
    refine ⟨v,by rw [if_pos hflag, hv],?_⟩
    rw [if_pos hflag]
    omega
  · obtain ⟨v,hv,hval⟩ := l.swapInsert_eq_setCounter swapKey (count c)
    have hint : toInt32 c.toNat = count c := by
      rw [toNat_eq_count (by simpa using hflag)]
      exact toInt32_of_bounds (by omega) (by omega)
    refine ⟨v,by rw [if_neg hflag, hint, hv],?_⟩
    rw [if_neg hflag]
    omega

/-- Where no sum of a slot and a light counter leaves the range of `int`, inserting
a packet succeeds with one of the four effects. -/
theorem insert_unitStep (s : ElasticSketch hh lh) (key : Key)
    (hroom : ∀ i p, count ((s.bucket key).slot i) + s.lightPart.counters p < 2^31) :
    ∃ t, s.insert key 1 = some t ∧ UnitStep s key t := by
  have hheavy : ∃ b r, (s.bucket key).Step key 1 b r ∧
      s.heavyPart.insert key 1 = (s.heavyPart.setBucket (hh.pos key) b,r) :=
    s.heavyPart.insert_eq_setBucket key 1
  obtain ⟨b,r,hstep,hins⟩ := hheavy
  simp only [insert, UInt32.ofInt_one, hins]
  cases hstep with
  | matched i hmatch hfirst => exact ⟨_,rfl,.matched i hmatch hfirst⟩
  | filled i hnew hempty hfirst => exact ⟨_,rfl,.filled i hnew hempty hfirst⟩
  | rejected m hnew hfull hmin hstay =>
    obtain ⟨v,hv,hval⟩ := s.lightPart.insert_eq_setCounter key (f := 1) (by norm_num) (by omega)
    exact ⟨_,by rw [handOff, hv]; rfl,.rejected hnew hfull v (by unfold light; omega)⟩
  | evicted m hnew hfull hmin hswap =>
    obtain ⟨v,hv,hval⟩ := handOff_swapped s.lightPart key _ _ (hroom m (lh.pos _))
    exact ⟨_,by rw [hv]; rfl,.evicted m hnew hfull v hval⟩

@[simp] theorem clear_heavyPart (hh lh : Hashing) : (clear hh lh).heavyPart = HeavyPart.clear hh := rfl
@[simp] theorem clear_lightPart (hh lh : Hashing) : (clear hh lh).lightPart = LightPart.clear lh := rfl

theorem heavyPart_of_insert {s t : ElasticSketch hh lh} {key : Key} {f : ℤ}
    (h : s.insert key f = some t) : t.heavyPart = (s.heavyPart.insert key (UInt32.ofInt f)).1 := by
  obtain ⟨l,-,rfl⟩ := Option.map_eq_some_iff.mp h
  rfl

/-- The heavy part runs on its own: what the light part holds never reaches it. -/
theorem heavyPart_of_insertAll (keys : List Key) (s : ElasticSketch hh lh)
    (h : insertAll hh lh keys = some s) : s.heavyPart = (HeavyPart.insertAll hh keys).1 := by
  refine Runs.run_preserves (fun keys s => s.heavyPart = (HeavyPart.insertAll hh keys).1) rfl ?_
    keys s h
  intro keys key s t hs hstep
  rw [heavyPart_of_insert hstep, HeavyPart.insertAll_concat, hs]
  rfl

/-- What a query adds to the count of a slot, as long as the sum is an `int`. -/
theorem addLight_of_small (x : UInt32) {v : ℤ} (hv : 0 ≤ v) (hroom : count x + v < 2^31) :
    (if x = 0 ∨ highestBitIs1 x then toInt32 (toInt32 (getCounterVal x).toNat + v)
      else toInt32 x.toNat) = count x + if x = 0 ∨ highestBitIs1 x then v else 0 := by
  rw [toInt32_count]
  split_ifs with hcond
  · exact toInt32_of_bounds (by omega) (by omega)
  · have hflag : highestBitIs1 x = false := by simpa using fun h => hcond (Or.inr h)
    rw [toNat_eq_count hflag, toInt32_of_bounds (by omega) (by omega), add_zero]

/-- The flow of a key is read off its bucket and its light counter. -/
theorem query_of_small (s : ElasticSketch hh lh) (key : Key)
    (hroom : count ((s.bucket key).query key) + s.light key < 2^31) :
    s.query key = count ((s.bucket key).query key) +
      if (s.bucket key).query key = 0 ∨ highestBitIs1 ((s.bucket key).query key) then
        (s.light key : ℤ) else 0 :=
  addLight_of_small (v := s.light key) ((s.bucket key).query key) (by omega) (by omega)

end ElasticSketch
end SketchMonitor
