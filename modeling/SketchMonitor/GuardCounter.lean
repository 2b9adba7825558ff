import SketchMonitor.HeavyPart
import SketchMonitor.Runs

/-!
# The guard counter of a bucket

A run of packets through the heavy part is recorded packet by packet. The guard
is the number of rejections recorded for the bucket after its last eviction. It
stays zero while some slot reads as empty, which is what keeps it below eight
times every count.
-/

namespace SketchMonitor

namespace Bucket

/-- After `n` packets: nothing exceeds `n`, the guard is at most eight times every
count, and it is zero while a slot reads as empty. -/
structure GuardOk (n : ℕ) (b : Bucket) : Prop where
  count_le : ∀ i, count (b.slot i) ≤ n
  guard_le : b.guard.toNat ≤ n
  guard_le_count : ∀ i, b.guard.toNat ≤ 8 * count (b.slot i)
  guard_zero : ∀ i, b.ReadsEmpty i → b.guard = 0

theorem GuardOk.zero : GuardOk 0 Bucket.zero where
  count_le i := by simp [count_eq_mod]
  guard_le := by simp
  guard_le_count i := by simp
  guard_zero i _ := rfl

theorem GuardOk.mono {n m : ℕ} {b : Bucket} (hb : GuardOk n b) (hnm : n ≤ m) : GuardOk m b where
  count_le i := (hb.count_le i).trans hnm
  guard_le := hb.guard_le.trans hnm
  guard_le_count := hb.guard_le_count
  guard_zero := hb.guard_zero

theorem guard_add_one {n : ℕ} {b : Bucket} (hb : GuardOk n b) (hn : n + 1 < 2^31) :
    (b.guard + 1).toNat = b.guard.toNat + 1 := by
  have h := hb.guard_le
  rw [UInt32.toNat_add]
  simp only [UInt32.reduceToNat]
  omega

theorem GuardOk.step {n : ℕ} {b b' : Bucket} {key : Key} {r : InsertResult} (hb : GuardOk n b)
    (hn : n + 1 < 2^31) (hstep : b.Step key 1 b' r) : GuardOk (n+1) b' := by
  have hc := hb.count_le
  have hg := hb.guard_le
  cases hstep with
  | matched i hmatch hfirst =>
    have hi := count_add_one (v := b.slot i) (by have := hc i; omega)
    have hgi := hb.guard_le_count
    refine ⟨fun j => ?_,by simpa using hg.trans (by omega),fun j => ?_,fun j hj => ?_⟩
    · have hj := hc j
      rw [setVal_slot, Function.update_apply]
      split_ifs with hji <;> subst_vars <;> omega
    · have hj := hgi j
      rw [setVal_slot, setVal_guard, Function.update_apply]
      split_ifs with hji <;> subst_vars <;> omega
    · rw [setVal_guard]
      exact hb.guard_zero j hj
  | filled i hnew hempty hfirst =>
    have hzero : b.guard = 0 := hb.guard_zero i hempty
    refine ⟨fun j => ?_,by simp [hzero],fun j => by simp [hzero],fun j _ => by simp [hzero]⟩
    have hj := hc j
    have hone : count 1 = 1 := rfl
    rw [setVal_slot, Function.update_apply, setKey_slot]
    split_ifs <;> omega
  | rejected m hnew hfull hmin hstay =>
    have hguard := guard_add_one hb hn
    have hle := guard_le_of_not_judgeIfSwap hstay
    refine ⟨fun j => ?_,?_,fun j => ?_,fun j hj => absurd hj (hfull j)⟩
    · have hj := hc j
      rw [setGuard_slot]
      omega
    · rw [setGuard_guard]
      omega
    · have hj := hmin j
      change _ ≤ 8 * count (b.slot m) at hle
      rw [setGuard_slot, setGuard_guard]
      omega
  | evicted m hnew hfull hmin hswap =>
    refine ⟨fun j => ?_,by simp,fun j => by simp,fun j _ => by simp⟩
    have hj := hc j
    have hone : count 0x80000001 = 1 := rfl
    rw [setVal_slot, Function.update_apply, setKey_slot, setGuard_slot]
    split_ifs <;> omega

end Bucket

namespace HeavyPart

variable {h : Hashing}

/-- Packets of bucket `b` that found it full and were rejected, counted back to
its last eviction. -/
def rejectedSince (b : Fin h.size) (events : List (Event h)) : ℕ :=
  ((events.filter fun e => e.pos = b).reverse.takeWhile fun e => e.result.code ≠ 1).countP
    fun e => e.full && e.result.code == 2

@[simp] theorem rejectedSince_nil (b : Fin h.size) : rejectedSince b [] = 0 := rfl

theorem rejectedSince_of_ne {b : Fin h.size} {e : Event h} (events : List (Event h))
    (he : e.pos ≠ b) : rejectedSince b (events ++ [e]) = rejectedSince b events := by
  simp [rejectedSince, List.filter_append, he]

theorem rejectedSince_concat {b : Fin h.size} {e : Event h} (events : List (Event h))
    (he : e.pos = b) : rejectedSince b (events ++ [e]) =
      if e.result.code = 1 then 0
      else rejectedSince b events + if e.full && e.result.code == 2 then 1 else 0 := by
  by_cases hc : e.result.code = 1
  · simp [rejectedSince, List.filter_append, he, hc]
  · simp [rejectedSince, List.filter_append, he, hc, List.countP_cons]

/-- One packet changes the guard as it changes the recorded number of rejections. -/
theorem guard_step {b b' : Bucket} {key : Key} {r : InsertResult} {n : ℕ} (hb : b.GuardOk n)
    (hn : n + 1 < 2^31) (hstep : b.Step key 1 b' r) :
    b'.guard.toNat = if r.code = 1 then 0
      else b.guard.toNat + if decide (b.FullFor key) && r.code == 2 then 1 else 0 := by
  cases hstep with
  | matched i hmatch hfirst => simp [InsertResult.code]
  | filled i hnew hempty hfirst => simp [InsertResult.code]
  | rejected m hnew hfull hmin hstay =>
    have hfullFor : b.FullFor key := ⟨hnew,hfull⟩
    simpa [InsertResult.code, hfullFor] using Bucket.guard_add_one hb hn
  | evicted m hnew hfull hmin hswap => simp [InsertResult.code]

theorem insertAll_invariant (h : Hashing) (keys : List Key) (hlen : keys.length < 2^31)
    (b : Fin h.size) :
    ((insertAll h keys).1.buckets b).GuardOk keys.length ∧
      ((insertAll h keys).1.buckets b).guard.toNat = rejectedSince b (insertAll h keys).2 := by
  have hlength (keys : List Key) (key : Key) : (keys ++ [key]).length = keys.length + 1 := by
    rw [List.length_append, List.length_singleton]
  refine insertAll_bucket_rule (fun keys => keys.length < 2^31)
    (fun keys events bucket => bucket.GuardOk keys.length ∧
      bucket.guard.toNat = rejectedSince b events)
    (fun keys key hlen => ?_) ⟨Bucket.GuardOk.zero,rfl⟩ ?_ ?_ keys hlen
  · rw [hlength] at hlen
    omega
  · rintro keys events bucket key e hne ⟨hok,hguard⟩
    rw [hlength, rejectedSince_of_ne _ hne]
    exact ⟨hok.mono (Nat.le_succ _),hguard⟩
  · rintro keys events bucket key bucket' r hlen - ⟨hok,hguard⟩ hstep
    rw [hlength] at hlen ⊢
    rw [rejectedSince_concat (e := ⟨b,_,_⟩) _ rfl, ← hguard]
    exact ⟨hok.step hlen hstep,guard_step hok hlen hstep⟩

/-- The guard counts the rejections since the bucket's last eviction, is at most
eight times the smallest count, and is zero while a slot reads as empty. -/
theorem guard_counts_rejections (h : Hashing) (keys : List Key) (hlen : keys.length < 2^31)
    (b : Fin h.size) :
    let bucket := (insertAll h keys).1.buckets b
    bucket.guard.toNat = rejectedSince b (insertAll h keys).2 ∧
      bucket.guard.toNat ≤ 8 * Finset.univ.inf' Finset.univ_nonempty (fun i => count (bucket.slot i)) ∧
      ((∃ i, bucket.ReadsEmpty i) → bucket.guard = 0) := by
  obtain ⟨hok,hguard⟩ := insertAll_invariant h keys hlen b
  refine ⟨hguard,?_,fun ⟨i,hi⟩ => hok.guard_zero i hi⟩
  obtain ⟨m,-,hm⟩ := Finset.exists_mem_eq_inf' Finset.univ_nonempty
    fun i => count (((insertAll h keys).1.buckets b).slot i)
  rw [hm]
  exact hok.guard_le_count m

theorem guard_counts_rejections_nine_keys :
    let st := insertAll ⟨1,by decide,by decide,fun _ => 0⟩ ([1,2,3,4,5,6,7,8,9].map Key.memset)
    let bucket := st.1.buckets 0
    bucket.guard.toNat = rejectedSince 0 st.2 ∧
      bucket.guard.toNat ≤ 8 * Finset.univ.inf' Finset.univ_nonempty (fun i => count (bucket.slot i)) ∧
      ((∃ i, bucket.ReadsEmpty i) → bucket.guard = 0) :=
  guard_counts_rejections _ ([1,2,3,4,5,6,7,8,9].map Key.memset) (by decide) 0

end HeavyPart
end SketchMonitor
