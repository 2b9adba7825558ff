import Mathlib.Data.List.ReduceOption
import SketchMonitor.Components
import SketchMonitor.WeightAccounting

/-!
# Buckets do not interfere

An insertion reads and writes the bucket of its key and nothing else of the heavy
part, which so is a family of independent buckets. What a bucket ends with, and what
it hands to the light part on the way, depends on the packets hashing to it alone.
-/

namespace SketchMonitor

open Lockstep Components

/-- What an insertion hands to the light part: its own key, or an evicted key with the
flag and the count of its slot. -/
inductive HandOff
  | rejected (key : Key)
  | evicted (swapKey : Key) (flag : Bool) (count : ℕ)
  deriving DecidableEq

namespace HandOff

def ofResult (key : Key) : InsertResult → Option HandOff
  | .kept => none
  | .swapped swapKey swapVal => some (.evicted swapKey (highestBitIs1 swapVal) (count swapVal))
  | .rejected => some (.rejected key)

/-- The call it makes on the light part. -/
def op : HandOff → LightPart.Op
  | rejected key => .insert key 1
  | evicted swapKey flag count =>
    if flag then .insert swapKey (toInt32 count) else .swapInsert swapKey (toInt32 count)

/-- The `switch` of `ElasticSketch::insert` makes the call of the hand-off. -/
theorem handedOp_eq (key : Key) (r : InsertResult) :
    ElasticSketch.handedOp key r = (ofResult key r).map op := by
  cases r with
  | kept => rfl
  | rejected => rfl
  | swapped swapKey swapVal =>
    rw [ElasticSketch.handedOp, ofResult, Option.map_some, op]
    by_cases hflag : highestBitIs1 swapVal
    · rw [if_pos hflag, if_pos hflag]
      rfl
    · rw [if_neg hflag, if_neg hflag, toNat_eq_count (by simpa using hflag)]

end HandOff

namespace HeavyPart

variable {h : Hashing}

/-- An insertion of one packet with what it hands on. -/
def insertUnit (hp : HeavyPart h) (key : Key) : HeavyPart h × Option HandOff :=
  let r := hp.insert key 1
  (r.1,HandOff.ofResult key r.2)

def bucketUnit (b : Bucket) (key : Key) : Bucket × Option HandOff :=
  let r := b.insert key 1
  (r.1,HandOff.ofResult key r.2)

/-- The packets hashing to a bucket, in order. -/
def packetsAt (h : Hashing) (pos : Fin h.size) (keys : List Key) : List Key :=
  inputsAt h.pos pos keys

/-- What a run of unit inserts hands on for the packets of one bucket, in order. -/
def handOffsAt (h : Hashing) (pos : Fin h.size) (keys : List Key) : List HandOff :=
  (outputsAt h.pos insertUnit pos (clear h) keys).reduceOption

/-- What it hands on in all. -/
def handOffs (h : Hashing) (keys : List Key) : List HandOff :=
  (outputs insertUnit (clear h) keys).reduceOption

theorem insertUnit_eq_step (hp : HeavyPart h) (key : Key) :
    (hp.insertUnit key).1.buckets = (step h.pos bucketUnit hp.buckets key).1 ∧
      (hp.insertUnit key).2 = (step h.pos bucketUnit hp.buckets key).2 := ⟨rfl,rfl⟩

theorem insertAll_eq_final (keys : List Key) :
    (insertAll h keys).1 = final insertUnit (clear h) keys := by
  induction keys using List.reverseRecOn with
  | nil => rfl
  | append_singleton keys key ih =>
    rw [insertAll_concat, final_concat, ← ih]
    rfl

/-- Both are those of the family of buckets. -/
theorem insertAll_buckets (keys : List Key) :
    (insertAll h keys).1.buckets = final (step h.pos bucketUnit) (fun _ => Bucket.zero) keys := by
  rw [insertAll_eq_final]
  exact (simulates buckets insertUnit_eq_step (clear h) keys).1

theorem handOffsAt_eq (pos : Fin h.size) (keys : List Key) : handOffsAt h pos keys =
    (outputsAt h.pos (step h.pos bucketUnit) pos (fun _ => Bucket.zero) keys).reduceOption := by
  rw [handOffsAt, (simulates buckets insertUnit_eq_step (clear h) keys).2 pos]
  rfl

end HeavyPart

namespace ElasticSketch

open HeavyPart

variable {hh lh : Hashing}

theorem insert_eq_insertUnit (s : ElasticSketch hh lh) (key : Key) :
    s.insert key 1 = (((s.heavyPart.insertUnit key).2.map HandOff.op).elim (some s.lightPart)
      s.lightPart.apply).map (⟨(s.heavyPart.insertUnit key).1,·⟩) := by
  rw [insert, handOff_eq_apply, HandOff.handedOp_eq, UInt32.ofInt_one]
  rfl

/-- The light part of a run is made by the calls of the hand-offs alone. -/
theorem run_insert_eq (keys : List Key) (s : ElasticSketch hh lh) :
    Runs.run (fun s key => s.insert key 1) s keys =
      (Runs.run LightPart.apply s.lightPart
        ((outputs insertUnit s.heavyPart keys).reduceOption.map HandOff.op)).map
          (⟨final insertUnit s.heavyPart keys,·⟩) := by
  induction keys generalizing s with
  | nil => rfl
  | cons key keys ih =>
    rw [Runs.run_cons, insert_eq_insertUnit, outputs, final_cons]
    cases hout : (s.heavyPart.insertUnit key).2 with
    | none =>
      rw [List.reduceOption_cons_of_none, Option.map_none, Option.elim_none, Option.map_some,
        Option.bind_some, ih]
    | some out =>
      rw [List.reduceOption_cons_of_some, Option.map_some, Option.elim_some, List.map_cons,
        Runs.run_cons]
      cases happly : s.lightPart.apply out.op with
      | none => rfl
      | some l => rw [Option.map_some, Option.bind_some, Option.bind_some, ih]

theorem insertAll_eq_handOffs (hh lh : Hashing) (keys : List Key) :
    insertAll hh lh keys = (Runs.run LightPart.apply (LightPart.clear lh)
      ((handOffs hh keys).map HandOff.op)).map (⟨(HeavyPart.insertAll hh keys).1,·⟩) := by
  rw [insertAll, run_insert_eq, insertAll_eq_final]
  rfl

/-- A bucket of a sketch is made by its own packets. -/
theorem buckets_eq_final {keys : List Key} {s : ElasticSketch hh lh}
    (h : insertAll hh lh keys = some s) (pos : Fin hh.size) :
    s.heavyPart.buckets pos = final bucketUnit Bucket.zero (packetsAt hh pos keys) := by
  rw [insertAll_eq_handOffs] at h
  obtain ⟨l,-,rfl⟩ := Option.map_eq_some_iff.mp h
  rw [insertAll_buckets, final_step, packetsAt]

end ElasticSketch

open HeavyPart

/-- Runs of unit inserts in which every bucket reads the same packets in the same order
end with the same heavy part, and every bucket has handed on the same. -/
theorem buckets_do_not_interfere (h : Hashing) (keys keys' : List Key)
    (hsame : ∀ pos, packetsAt h pos keys = packetsAt h pos keys') :
    (HeavyPart.insertAll h keys).1 = (HeavyPart.insertAll h keys').1 ∧
      ∀ pos, handOffsAt h pos keys = handOffsAt h pos keys' := by
  constructor
  · have hbuckets := final_eq_of_inputsAt (f := bucketUnit) (fun _ => Bucket.zero) hsame
    rw [← insertAll_buckets, ← insertAll_buckets] at hbuckets
    exact congrArg HeavyPart.mk hbuckets
  · intro pos
    rw [handOffsAt_eq, handOffsAt_eq, outputsAt_eq_of_inputsAt _ (hsame pos)]

/-- Eight flows fill one of two buckets, the packet of the other bucket comes last or first. -/
theorem buckets_do_not_interfere_nine_packets :
    let h : Hashing := ⟨2,by decide,by decide,fun key => (key.bytes.getD 0 0).toUInt32⟩
    let odd := [1,3,5,7,9,11,13,15].map Key.memset
    handOffsAt h ⟨1,by decide⟩ (odd ++ [Key.memset 2]) = [.rejected (Key.memset 15)] ∧
      (HeavyPart.insertAll h (odd ++ [Key.memset 2])).1 =
        (HeavyPart.insertAll h (Key.memset 2 :: odd)).1 ∧
      ∀ pos, handOffsAt h pos (odd ++ [Key.memset 2]) = handOffsAt h pos (Key.memset 2 :: odd) :=
  ⟨by decide +kernel,buckets_do_not_interfere _ _ _ (by decide +kernel)⟩

end SketchMonitor
