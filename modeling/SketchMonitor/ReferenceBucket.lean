import SketchMonitor.HeavyPart
import SketchMonitor.Lockstep

/-!
# The packed bucket against an ideal one

In the ideal bucket the flag is kept apart, counts and guard are unbounded, and the
threshold is computed without a shift. Packed and ideal buckets run in lockstep as
long as no count reaches bit 31 and no shifted minimum loses its high bits before
the guard has reached what is left of it.
-/

namespace SketchMonitor

structure RefSlot where
  key : Key
  flag : Bool
  count : ℕ

structure RefBucket where
  slots : Fin maxValidCounter → RefSlot
  guard : ℕ

inductive RefResult
  | kept
  | swapped (slot : RefSlot)
  | rejected

namespace RefBucket

def zero : RefBucket := ⟨fun _ => ⟨Key.zeroStr,false,0⟩,0⟩

def setSlot (r : RefBucket) (i : Fin maxValidCounter) (s : RefSlot) : RefBucket :=
  { r with slots := Function.update r.slots i s }

def Holds (r : RefBucket) (key : Key) (i : Fin maxValidCounter) : Prop := (r.slots i).key = key

def IsMin (r : RefBucket) (m : Fin maxValidCounter) : Prop :=
  ∀ j, (r.slots m).count ≤ (r.slots j).count

instance (r : RefBucket) (key : Key) : DecidablePred (r.Holds key) :=
  fun i => inferInstanceAs (Decidable ((r.slots i).key = key))

instance (r : RefBucket) : DecidablePred r.IsMin :=
  fun m => inferInstanceAs (Decidable (∀ j, (r.slots m).count ≤ (r.slots j).count))

def minSlot (r : RefBucket) : Fin maxValidCounter := (Bucket.first r.IsMin).getD ⟨0,by decide⟩

/-- Count a known key, fill an empty slot, or evict the first slot of least count
once the rejections exceed eight times that count. -/
def insert (r : RefBucket) (key : Key) : RefBucket × RefResult :=
  let k := key.strncpy
  match Bucket.first (r.Holds k) with
  | some i => (r.setSlot i { r.slots i with count := (r.slots i).count + 1 },.kept)
  | none =>
    match Bucket.first (r.Holds Key.zeroStr) with
    | some i => (r.setSlot i ⟨k,false,1⟩,.kept)
    | none =>
      let m := r.minSlot
      if r.guard + 1 > 8 * (r.slots m).count then
        ({ r.setSlot m ⟨k,true,1⟩ with guard := 0 },.swapped (r.slots m))
      else ({ r with guard := r.guard + 1 },.rejected)

@[simp] theorem setSlot_slots (r : RefBucket) (i : Fin maxValidCounter) (s : RefSlot) :
    (r.setSlot i s).slots = Function.update r.slots i s := rfl
@[simp] theorem setSlot_guard (r : RefBucket) (i : Fin maxValidCounter) (s : RefSlot) :
    (r.setSlot i s).guard = r.guard := rfl

theorem exists_isMin (r : RefBucket) : ∃ m, r.IsMin m := by
  obtain ⟨m,-,hm⟩ := Finset.exists_min_image Finset.univ (fun i => (r.slots i).count)
    ⟨0,Finset.mem_univ _⟩
  exact ⟨m,fun j => hm j (Finset.mem_univ j)⟩

theorem first_isMin (r : RefBucket) : Bucket.first r.IsMin = some r.minSlot := by
  cases h : Bucket.first r.IsMin with
  | none =>
    obtain ⟨m,hm⟩ := r.exists_isMin
    exact absurd hm (Bucket.first_eq_none_iff.mp h m)
  | some m => simp [minSlot, h]

theorem isMin_minSlot (r : RefBucket) : r.IsMin r.minSlot :=
  (Bucket.first_eq_some_iff.mp r.first_isMin).1

/-- What the ideal bucket keeps by itself: keys are copies, and the guard has not
passed the threshold of any slot. -/
structure Inv (r : RefBucket) : Prop where
  copied : ∀ i, (r.slots i).key.strncpy = (r.slots i).key
  guard_le : ∀ i, r.guard ≤ 8 * (r.slots i).count
  guard_zero : ∀ i, (r.slots i).key = Key.zeroStr → r.guard = 0

theorem Inv.zero : Inv zero where
  copied i := by simp [RefBucket.zero]
  guard_le i := Nat.zero_le _
  guard_zero i _ := rfl

theorem Inv.setSlot {r : RefBucket} (hr : r.Inv) (i : Fin maxValidCounter) {s : RefSlot}
    (hs : s.key.strncpy = s.key) (hle : r.guard ≤ 8 * s.count)
    (hzero : s.key = Key.zeroStr → r.guard = 0) : (r.setSlot i s).Inv := by
  constructor <;> intro j <;> by_cases hj : j = i
  · simpa [hj] using hs
  · simpa [hj] using hr.copied j
  · simpa [hj] using hle
  · simpa [hj] using hr.guard_le j
  · simpa [hj] using hzero
  · simpa [hj] using hr.guard_zero j

theorem insert_of_holds {r : RefBucket} {key : Key} {i : Fin maxValidCounter}
    (h : Bucket.first (r.Holds key.strncpy) = some i) :
    r.insert key = (r.setSlot i { r.slots i with count := (r.slots i).count + 1 },.kept) := by
  simp only [insert, h]

theorem insert_of_empty {r : RefBucket} {key : Key} {i : Fin maxValidCounter}
    (hnew : Bucket.first (r.Holds key.strncpy) = none)
    (h : Bucket.first (r.Holds Key.zeroStr) = some i) :
    r.insert key = (r.setSlot i ⟨key.strncpy,false,1⟩,.kept) := by
  simp only [insert, hnew, h]

theorem insert_of_full {r : RefBucket} {key : Key}
    (hnew : Bucket.first (r.Holds key.strncpy) = none)
    (hfull : Bucket.first (r.Holds Key.zeroStr) = none) :
    r.insert key = if r.guard + 1 > 8 * (r.slots r.minSlot).count then
        ({ r.setSlot r.minSlot ⟨key.strncpy,true,1⟩ with guard := 0 },.swapped (r.slots r.minSlot))
      else ({ r with guard := r.guard + 1 },.rejected) := by
  simp only [insert, hnew, hfull]

theorem Inv.insert {r : RefBucket} (hr : r.Inv) (key : Key) : (r.insert key).1.Inv := by
  cases hm : Bucket.first (r.Holds key.strncpy) with
  | some i =>
    rw [insert_of_holds hm]
    exact hr.setSlot i (hr.copied i) ((hr.guard_le i).trans (Nat.mul_le_mul_left 8 (Nat.le_succ _)))
      (hr.guard_zero i)
  | none =>
    cases he : Bucket.first (r.Holds Key.zeroStr) with
    | some i =>
      have hguard := hr.guard_zero i (Bucket.first_eq_some_iff.mp he).1
      rw [insert_of_empty hm he]
      exact hr.setSlot i (by simp) (by omega) fun _ => hguard
    | none =>
      have hfull := Bucket.first_eq_none_iff.mp he
      rw [insert_of_full hm he]
      split_ifs with hswap
      · have hr₀ : Inv { r with guard := 0 } :=
          ⟨hr.copied,fun i => Nat.zero_le _,fun i _ => rfl⟩
        exact hr₀.setSlot r.minSlot (by simp) (Nat.zero_le _) fun _ => rfl
      · refine ⟨hr.copied,fun i => ?_,fun i hi => absurd hi (hfull i)⟩
        have hmin := r.isMin_minSlot i
        change r.guard + 1 ≤ 8 * (r.slots i).count
        omega

end RefBucket

namespace Bucket

/-- The packed bucket is the encoding of the ideal one. -/
structure Encodes (b : Bucket) (r : RefBucket) : Prop where
  key : ∀ i, b.key i = (r.slots i).key
  flag : ∀ i, highestBitIs1 (b.slot i) = (r.slots i).flag
  count : ∀ i, count (b.slot i) = (r.slots i).count
  guard : b.guard.toNat = r.guard

theorem Encodes.zero : Encodes Bucket.zero RefBucket.zero where
  key i := rfl
  flag i := by simp [RefBucket.zero, highestBitIs1]
  count i := by simp [RefBucket.zero, count_eq_mod]
  guard := rfl

theorem Encodes.setSlot {b b' : Bucket} {r : RefBucket} (h : b.Encodes r) {i : Fin maxValidCounter}
    {s : RefSlot} {v : UInt32} (hkeys : b'.key = Function.update b.key i s.key)
    (hslots : b'.slot = Function.update b.slot i v) (hguard : b'.guard = b.guard)
    (hflag : highestBitIs1 v = s.flag) (hcount : SketchMonitor.count v = s.count) :
    b'.Encodes (r.setSlot i s) := by
  constructor
  · intro j
    by_cases hj : j = i
    · simp [hkeys, hj]
    · simp [hkeys, hj, h.key j]
  · intro j
    by_cases hj : j = i
    · simp [hslots, hj, hflag]
    · simp [hslots, hj, h.flag j]
  · intro j
    by_cases hj : j = i
    · simp [hslots, hj, hcount]
    · simp [hslots, hj, h.count j]
  · rw [hguard, h.guard, RefBucket.setSlot_guard]

/-- The same code, and after an eviction the same key, flag and count. -/
def SameResult : InsertResult → RefResult → Prop
  | .kept, .kept => True
  | .swapped k v, .swapped s => k = s.key ∧ highestBitIs1 v = s.flag ∧ count v = s.count
  | .rejected, .rejected => True
  | _, _ => False

/-- The count of a matched slot stays below bit 31, and in a full bucket the shifted
minimum either fits into 32 bits or is, after the loss of its high bits, not yet passed
by the guard. -/
def InRange (b : Bucket) (key : Key) : Prop :=
  (∀ i, b.Matches key i → (∀ j < i, ¬ b.Matches key j) → count (b.slot i) + 1 < 2^31) ∧
    (b.FullFor key → ∀ m, b.IsMin m →
      8 * count (b.slot m) < 2^32 ∨ b.guard.toNat + 1 ≤ 8 * count (b.slot m) % 2^32)

theorem judgeIfSwap_iff (v g : UInt32) :
    judgeIfSwap (getCounterVal v) g = true ↔ 8 * SketchMonitor.count v % 2^32 < g.toNat := by
  have hshift : (getCounterVal v <<< 3).toNat = 8 * SketchMonitor.count v % 2^32 := by
    simp [Nat.shiftLeft_eq, SketchMonitor.count, mul_comm]
  rw [judgeIfSwap, decide_eq_true_iff, gt_iff_lt, UInt32.lt_iff_toNat_lt, hshift]

variable {b : Bucket} {r : RefBucket}

theorem Encodes.matches_iff (h : b.Encodes r) (hr : r.Inv) (key : Key) (i : Fin maxValidCounter) :
    b.Matches key i ↔ r.Holds key.strncpy i := by
  rw [Bucket.matches_iff, h.key, hr.copied, RefBucket.Holds]

theorem Encodes.readsEmpty_iff (h : b.Encodes r) (hr : r.Inv) (i : Fin maxValidCounter) :
    b.ReadsEmpty i ↔ r.Holds Key.zeroStr i := by
  rw [ReadsEmpty, h.matches_iff hr, Key.strncpy_zeroStr]

theorem Encodes.isMin_iff (h : b.Encodes r) (m : Fin maxValidCounter) : b.IsMin m ↔ r.IsMin m := by
  simp only [IsMin, RefBucket.IsMin, h.count]

/-- A matched slot is counted the same way unless the count reaches bit 31. -/
theorem step_matched (h : b.Encodes r) {i : Fin maxValidCounter} :
    count (b.slot i) + 1 < 2^31 ↔
      (b.setVal i (b.slot i + 1)).Encodes
        (r.setSlot i { r.slots i with count := (r.slots i).count + 1 }) := by
  constructor
  · intro hroom
    refine h.setSlot (v := b.slot i + 1) ?_ (by simp) (by simp) ?_ ?_
    · simp [← h.key i]
    · rw [highestBitIs1_add_one hroom, h.flag i]
    · rw [count_add_one hroom, h.count i]
  · intro henc
    have hnew := henc.count i
    have hlt := count_lt ((b.setVal i (b.slot i + 1)).slot i)
    simp only [RefBucket.setSlot_slots, Function.update_self] at hnew
    rw [hnew, ← h.count i] at hlt
    exact hlt

/-- The threshold test on the shifted minimum and the incremented guard. -/
theorem threshold_iff {c g : ℕ} (hg : g < 2^32) (hle : g ≤ 8 * c) :
    (8 * c < 2^32 ∨ g + 1 ≤ 8 * c % 2^32) ↔
      ((8 * c % 2^32 < (g + 1) % 2^32 ↔ g + 1 > 8 * c) ∧
        (¬ g + 1 > 8 * c → (g + 1) % 2^32 = g + 1)) := by
  constructor
  · rintro (hsmall | hreach)
    · exact ⟨by omega,by omega⟩
    · exact ⟨by omega,by omega⟩
  · rintro ⟨hsame,hguard⟩
    by_contra hlost
    have hstay : ¬ g + 1 > 8 * c := by omega
    have hwrap := hguard hstay
    have hswap : ¬ 8 * c % 2^32 < (g + 1) % 2^32 := fun h => hstay (hsame.mp h)
    omega

/-- In a full bucket both take the same decision unless high bits of the shifted
minimum are lost and the guard passes what is left. -/
theorem step_full (h : b.Encodes r) (hr : r.Inv) (m : Fin maxValidCounter) (key : Key) :
    (8 * count (b.slot m) < 2^32 ∨ b.guard.toNat + 1 ≤ 8 * count (b.slot m) % 2^32) ↔
      (let packed := if judgeIfSwap (getCounterVal (b.slot m)) (b.guard + 1) then
          (((b.setGuard 0).setKey m key.strncpy).setVal m 0x80000001,
            InsertResult.swapped (b.key m).strncpy (b.slot m))
        else (b.setGuard (b.guard + 1),.rejected)
      let ideal := if r.guard + 1 > 8 * (r.slots m).count then
          ({ r.setSlot m ⟨key.strncpy,true,1⟩ with guard := 0 },RefResult.swapped (r.slots m))
        else ({ r with guard := r.guard + 1 },.rejected)
      SameResult packed.2 ideal.2 ∧ packed.1.Encodes ideal.1) := by
  have hle := hr.guard_le m
  rw [← h.count m, ← h.guard] at hle
  have hsucc : (b.guard + 1).toNat = (b.guard.toNat + 1) % 2^32 := by
    simp [UInt32.toNat_add]
  have hswapped : SameResult (.swapped (b.key m).strncpy (b.slot m)) (.swapped (r.slots m)) :=
    ⟨by rw [h.key m, hr.copied m],h.flag m,h.count m⟩
  have hevict : (((b.setGuard 0).setKey m key.strncpy).setVal m 0x80000001).Encodes
      { r.setSlot m ⟨key.strncpy,true,1⟩ with guard := 0 } := by
    have hreset : (b.setGuard 0).Encodes { r with guard := 0 } :=
      ⟨h.key,by simpa using h.flag,by simpa using h.count,by simp⟩
    exact hreset.setSlot (v := 0x80000001) (by simp) (by simp) (by simp) rfl rfl
  have hreject : (b.setGuard (b.guard + 1)).Encodes { r with guard := r.guard + 1 } ↔
      (b.guard.toNat + 1) % 2^32 = b.guard.toNat + 1 := by
    rw [← hsucc]
    constructor
    · intro henc
      have hnew := henc.guard
      rwa [setGuard_guard, ← h.guard] at hnew
    · intro hguard
      exact ⟨h.key,by simpa using h.flag,by simpa using h.count,by rw [setGuard_guard, hguard, h.guard]⟩
  have hswap := judgeIfSwap_iff (b.slot m) (b.guard + 1)
  rw [hsucc] at hswap
  rw [threshold_iff b.guard.toNat_lt hle, ← hreject, ← hswap, h.count m, h.guard]
  simp only
  by_cases hpacked : judgeIfSwap (getCounterVal (b.slot m)) (b.guard + 1) = true <;>
    by_cases hideal : r.guard + 1 > 8 * (r.slots m).count
  · rw [if_pos hpacked, if_pos hideal]
    exact iff_of_true ⟨iff_of_true hpacked hideal,fun hstay => absurd hideal hstay⟩ ⟨hswapped,hevict⟩
  · rw [if_pos hpacked, if_neg hideal]
    exact iff_of_false (fun hboth => hideal (hboth.1.mp hpacked)) fun hboth => hboth.1
  · rw [if_neg hpacked, if_pos hideal]
    exact iff_of_false (fun hboth => hpacked (hboth.1.mpr hideal)) fun hboth => hboth.1
  · rw [if_neg hpacked, if_neg hideal]
    exact ⟨fun hboth => ⟨trivial,hboth.2 hideal⟩,
      fun hboth => ⟨iff_of_false hpacked hideal,fun _ => hboth.2⟩⟩

/-- One insertion keeps packed and ideal bucket together exactly when it is in range. -/
theorem inRange_iff (h : b.Encodes r) (hr : r.Inv) (key : Key) :
    b.InRange key ↔ SameResult (b.insert key 1).2 (r.insert key).2 ∧
      (b.insert key 1).1.Encodes (r.insert key).1 := by
  have hmatch := first_congr (h.matches_iff hr key)
  have hempty := first_congr (h.readsEmpty_iff hr)
  have hmin := (first_congr h.isMin_iff).trans r.first_isMin
  cases hm : first (b.Matches key) with
  | some i =>
    obtain ⟨hi,hfirst⟩ := first_eq_some_iff.mp hm
    have hnotFull : ¬ b.FullFor key := fun hfull => hfull.1 i hi
    rw [insert_of_match 1 hm, RefBucket.insert_of_holds (hmatch.symm.trans hm), InRange]
    simp only [hnotFull, SameResult, true_and, false_implies, and_true, ← step_matched h]
    constructor
    · intro hroom
      exact hroom i hi hfirst
    · intro hroom j hj hbefore
      have hij : i = j := Option.some.inj (hm.symm.trans (first_eq_some_iff.mpr ⟨hj,hbefore⟩))
      rwa [← hij]
  | none =>
    have hnew := first_eq_none_iff.mp hm
    cases he : first b.ReadsEmpty with
    | some i =>
      have hnotFull : ¬ b.FullFor key := fun hfull => hfull.2 i (first_eq_some_iff.mp he).1
      rw [insert_of_empty 1 hm he,
        RefBucket.insert_of_empty (hmatch.symm.trans hm) (hempty.symm.trans he)]
      refine iff_of_true ⟨fun j hj => absurd hj (hnew j),fun hfull => absurd hfull hnotFull⟩ ?_
      exact ⟨trivial,h.setSlot (v := 1) (by simp) (by simp) (by simp) rfl rfl⟩
    | none =>
      have hfull : b.FullFor key := ⟨hnew,first_eq_none_iff.mp he⟩
      have hstep := step_full h hr r.minSlot key
      rw [insert_of_full 1 hm he hmin,
        RefBucket.insert_of_full (hmatch.symm.trans hm) (hempty.symm.trans he), ← hstep, InRange]
      constructor
      · rintro ⟨-,hroom⟩
        exact hroom hfull r.minSlot (first_eq_some_iff.mp hmin).1
      · refine fun hroom => ⟨fun j hj => absurd hj (hnew j),fun _ m hm' => ?_⟩
        -- all slots of least count have the same count
        have hsame : count (b.slot m) = count (b.slot r.minSlot) :=
          (hm' r.minSlot).antisymm ((first_eq_some_iff.mp hmin).1 m)
        rwa [hsame]

end Bucket

/-- The ideal heavy part: one ideal bucket for each position. -/
structure RefHeavyPart (h : Hashing) where
  buckets : Fin h.size → RefBucket

namespace RefHeavyPart

variable {h : Hashing}

def clear (h : Hashing) : RefHeavyPart h := ⟨fun _ => RefBucket.zero⟩

def insert (r : RefHeavyPart h) (key : Key) : RefHeavyPart h × RefResult :=
  let pos := h.pos key
  let out := (r.buckets pos).insert key
  (⟨Function.update r.buckets pos out.1⟩,out.2)

def Inv (r : RefHeavyPart h) : Prop := ∀ pos, (r.buckets pos).Inv

theorem Inv.insert {r : RefHeavyPart h} (hr : r.Inv) (key : Key) : (r.insert key).1.Inv := by
  intro pos
  by_cases hpos : pos = h.pos key
  · subst hpos
    simpa [RefHeavyPart.insert] using (hr _).insert key
  · simpa [RefHeavyPart.insert, hpos] using hr pos

theorem insert_pos (r : RefHeavyPart h) (key : Key) :
    (r.insert key).1.buckets (h.pos key) = ((r.buckets (h.pos key)).insert key).1 := by
  simp [RefHeavyPart.insert]

/-- A flow alone in its bucket is counted in the first slot, without bound. -/
theorem final_replicate (h : Hashing) (key : Key) (n : ℕ) :
    ((Lockstep.final insert (clear h) (List.replicate (n+1) key)).buckets (h.pos key)).slots 0 =
      ⟨key.strncpy,false,n+1⟩ := by
  induction n with
  | zero =>
    change (((clear h).insert key).1.buckets (h.pos key)).slots 0 = _
    rw [insert_pos]
    change (RefBucket.zero.insert key).1.slots 0 = _
    by_cases hzero : key.strncpy = Key.zeroStr
    · have hfirst : Bucket.first (RefBucket.zero.Holds key.strncpy) = some 0 :=
        Bucket.first_eq_some_iff.mpr ⟨hzero.symm,fun j hj => absurd hj (Fin.not_lt_zero j)⟩
      rw [RefBucket.insert_of_holds hfirst]
      simp [RefBucket.zero, hzero]
    · have hnew : Bucket.first (RefBucket.zero.Holds key.strncpy) = none :=
        Bucket.first_eq_none_iff.mpr fun j hj => hzero hj.symm
      have hempty : Bucket.first (RefBucket.zero.Holds Key.zeroStr) = some 0 :=
        Bucket.first_eq_some_iff.mpr ⟨rfl,fun j hj => absurd hj (Fin.not_lt_zero j)⟩
      simp [RefBucket.insert_of_empty hnew hempty]
  | succ n ih =>
    rw [List.replicate_succ', Lockstep.final_concat, insert_pos]
    have hfirst : Bucket.first (((Lockstep.final insert (clear h)
        (List.replicate (n+1) key)).buckets (h.pos key)).Holds key.strncpy) = some 0 :=
      Bucket.first_eq_some_iff.mpr ⟨by rw [RefBucket.Holds, ih],fun j hj => absurd hj (Fin.not_lt_zero j)⟩
    simp [RefBucket.insert_of_holds hfirst, ih]

end RefHeavyPart

namespace HeavyPart

variable {h : Hashing}

def Encodes (hp : HeavyPart h) (r : RefHeavyPart h) : Prop :=
  ∀ pos, (hp.buckets pos).Encodes (r.buckets pos)

/-- A unit insertion, as one machine step. -/
def insertOne (hp : HeavyPart h) (key : Key) : HeavyPart h × InsertResult := hp.insert key 1

/-- The bucket of the key has room for one more insertion. -/
def InRange (hp : HeavyPart h) (key : Key) : Prop := (hp.buckets (h.pos key)).InRange key

theorem inRange_iff {hp : HeavyPart h} {r : RefHeavyPart h} (key : Key) (henc : hp.Encodes r)
    (hr : r.Inv) :
    hp.InRange key ↔ Bucket.SameResult (hp.insertOne key).2 (r.insert key).2 ∧
      (hp.insertOne key).1.Encodes (r.insert key).1 := by
  rw [InRange, Bucket.inRange_iff (henc _) (hr _)]
  refine and_congr_right fun _ => ?_
  constructor
  · intro hnew pos
    by_cases hpos : pos = h.pos key
    · subst hpos
      simpa [insertOne, insert, RefHeavyPart.insert] using hnew
    · simpa [insertOne, insert, RefHeavyPart.insert, hpos, setBucket_of_ne] using henc pos
  · intro hall
    simpa [insertOne, insert, RefHeavyPart.insert] using hall (h.pos key)

/-- Over a run of unit insertions every result is that of the ideal heavy part and
every state is the encoding of the ideal one. -/
def Refines (h : Hashing) (keys : List Key) : Prop :=
  Lockstep.Agree insertOne RefHeavyPart.insert Encodes Bucket.SameResult (clear h)
    (RefHeavyPart.clear h) keys

/-- After 2^31 packets of one flow its count has run into the flag bit. -/
theorem not_refines_replicate (h : Hashing) (key : Key) {n : ℕ} (hn : 2^31 ≤ n) :
    ¬ Refines h (List.replicate n key) := by
  intro hrun
  obtain ⟨m,rfl⟩ : ∃ m, n = m + 1 := ⟨n - 1,by omega⟩
  have hcount := (hrun.final (h.pos key)).count 0
  rw [RefHeavyPart.final_replicate] at hcount
  have hlt := count_lt (((Lockstep.final insertOne (clear h)
    (List.replicate (m+1) key)).buckets (h.pos key)).slot 0)
  rw [hcount] at hlt
  exact absurd hlt (not_lt.mpr hn)

/-- The packed buckets refine the ideal ones on exactly the runs that stay in range. -/
theorem refines_iff_inRange (h : Hashing) (keys : List Key) :
    Refines h keys ↔ Lockstep.AllSteps insertOne InRange (clear h) keys :=
  Lockstep.agree_iff_allSteps RefHeavyPart.Inv (fun _ key hr => hr.insert key)
    (fun _ _ key henc hr => inRange_iff key henc hr) (clear h) (RefHeavyPart.clear h) keys
    (fun _ => Bucket.Encodes.zero) fun _ => RefBucket.Inv.zero

theorem refines_fails_long_flow :
    ¬ Refines ⟨1,by decide,by decide,fun _ => 0⟩ (List.replicate (2^31) (Key.memset 7)) :=
  not_refines_replicate _ _ le_rfl

end HeavyPart
end SketchMonitor
