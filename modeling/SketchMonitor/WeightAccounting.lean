import SketchMonitor.Lockstep
import SketchMonitor.ReportTotals

/-!
# Where the weight of an insertion goes

Inserting a key with a weight should leave that weight in the bucket of the key or
hand it to the light part. A match does so. The other outcomes do so under a
condition: a filled slot must hold no count, and an eviction or a rejection always
accounts for a weight of one.
-/

namespace SketchMonitor

open FiniteSums

/-- The weight a call on the light part is given. -/
def LightPart.Op.weight : LightPart.Op → ℤ
  | .insert _ f => f
  | .swapInsert _ f => f
  | .clear => 0

namespace ElasticSketch

variable {hh lh : Hashing}

/-- The call that the `switch` in `insert` makes on the light part. -/
def handedOp (key : Key) : InsertResult → Option LightPart.Op
  | .kept => none
  | .swapped swapKey swapVal =>
    if highestBitIs1 swapVal then some (.insert swapKey (toInt32 (getCounterVal swapVal).toNat))
    else some (.swapInsert swapKey (toInt32 swapVal.toNat))
  | .rejected => some (.insert key 1)

theorem handOff_eq_apply (l : LightPart lh) (key : Key) (r : InsertResult) :
    handOff l key r = (handedOp key r).elim (some l) l.apply := by
  cases r with
  | kept => rw [handOff, handedOp, Option.elim_none]
  | swapped swapKey swapVal =>
    rw [handOff, handedOp]
    split_ifs <;> rw [Option.elim_some, LightPart.apply]
  | rejected => rw [handOff, handedOp, Option.elim_some, LightPart.apply]

def handedWeight (key : Key) (r : InsertResult) : ℤ := (handedOp key r).elim 0 LightPart.Op.weight

@[simp] theorem handedWeight_kept (key : Key) : handedWeight key .kept = 0 := rfl
@[simp] theorem handedWeight_rejected (key : Key) : handedWeight key .rejected = 1 := rfl

/-- An evicted count is handed on whole, flagged or not. -/
@[simp] theorem handedWeight_swapped (key swapKey : Key) (v : UInt32) :
    handedWeight key (.swapped swapKey v) = count v := by
  have hlt := count_lt v
  rw [handedWeight, handedOp]
  split_ifs with hflag
  · rw [Option.elim_some, LightPart.Op.weight, toInt32_count]
  · rw [Option.elim_some, LightPart.Op.weight, toNat_eq_count (by simpa using hflag)]
    exact toInt32_of_bounds (by omega) (by omega)

end ElasticSketch

namespace Bucket

/-- The counts a bucket holds. -/
def heldCount (b : Bucket) : ℤ := ∑ i, (count (b.slot i) : ℤ)

/-- The counts after the call and what is handed on make up the counts before it and
the weight. -/
def AccountsFor (b : Bucket) (key : Key) (f : ℤ) : Prop :=
  (b.insert key (UInt32.ofInt f)).1.heldCount +
      ElasticSketch.handedWeight key (b.insert key (UInt32.ofInt f)).2 = b.heldCount + f

/-- No count reaches bit 31 by this call. -/
def StaysBelow (b : Bucket) (key : Key) (f : ℤ) : Prop :=
  f < 2^31 ∧ ∀ i, b.Matches key i → (∀ j < i, ¬ b.Matches key j) → count (b.slot i) + f < 2^31

/-- A new key fills a slot without a count, and finds a full bucket only with weight one. -/
def KeepsWeight (b : Bucket) (key : Key) (f : ℤ) : Prop :=
  (∀ i, (∀ j, ¬ b.Matches key j) → b.ReadsEmpty i → (∀ j < i, ¬ b.ReadsEmpty j) →
    count (b.slot i) = 0) ∧ (b.FullFor key → f = 1)

instance (b : Bucket) (key : Key) (f : ℤ) : Decidable (b.AccountsFor key f) :=
  inferInstanceAs (Decidable (_ = _))

instance (b : Bucket) (key : Key) (f : ℤ) : Decidable (b.StaysBelow key f) :=
  inferInstanceAs (Decidable (_ ∧ _))

instance (b : Bucket) (key : Key) (f : ℤ) : Decidable (b.KeepsWeight key f) :=
  inferInstanceAs (Decidable (_ ∧ _))

theorem heldCount_update {b b' : Bucket} {i : Fin maxValidCounter} {v : UInt32}
    (h : b'.slot = Function.update b.slot i v) :
    b'.heldCount + count (b.slot i) = b.heldCount + count v := by
  rw [heldCount, h]
  exact sum_update_add (fun v : UInt32 => (count v : ℤ)) b.slot i v

theorem heldCount_of_slot_eq {b b' : Bucket} (h : b'.slot = b.slot) : b'.heldCount = b.heldCount := by
  rw [heldCount, h, heldCount]

theorem count_ofInt {f : ℤ} (hpos : 1 ≤ f) (hlt : f < 2^31) : (count (UInt32.ofInt f) : ℤ) = f := by
  obtain ⟨n,rfl⟩ : ∃ n : ℕ, f = n := ⟨f.toNat,by omega⟩
  rw [count_eq_mod, toNat_ofInt_natCast]
  omega

theorem count_add_ofInt {v : UInt32} {f : ℤ} (hpos : 1 ≤ f) (hlt : count v + f < 2^31) :
    (count (v + UInt32.ofInt f) : ℤ) = count v + f := by
  obtain ⟨n,rfl⟩ : ∃ n : ℕ, f = n := ⟨f.toNat,by omega⟩
  rw [count_eq_mod] at hlt ⊢
  rw [count_eq_mod, UInt32.toNat_add, toNat_ofInt_natCast]
  omega

theorem keepsWeight_of_filled {b : Bucket} {key : Key} (f : ℤ) {i : Fin maxValidCounter}
    (hnew : ∀ j, ¬ b.Matches key j) (hempty : b.ReadsEmpty i) (hfirst : ∀ j < i, ¬ b.ReadsEmpty j) :
    b.KeepsWeight key f ↔ count (b.slot i) = 0 := by
  have hnotFull : ¬ b.FullFor key := fun hfull => hfull.2 i hempty
  refine ⟨fun hkeeps => hkeeps.1 i hnew hempty hfirst,fun hzero => ⟨?_,fun h => absurd h hnotFull⟩⟩
  intro j _ hj hbefore
  have hji : first b.ReadsEmpty = some j := first_eq_some_iff.mpr ⟨hj,hbefore⟩
  rw [first_eq_some_iff.mpr ⟨hempty,hfirst⟩] at hji
  rwa [← Option.some.inj hji]

theorem keepsWeight_of_full {b : Bucket} {key : Key} (f : ℤ) (hnew : ∀ j, ¬ b.Matches key j)
    (hfull : ∀ j, ¬ b.ReadsEmpty j) : b.KeepsWeight key f ↔ f = 1 :=
  ⟨fun hkeeps => hkeeps.2 ⟨hnew,hfull⟩,fun hf => ⟨fun i _ hi => absurd hi (hfull i),fun _ => hf⟩⟩

/-- One insertion accounts for its weight on exactly the stated condition. -/
theorem accountsFor_iff_keepsWeight (b : Bucket) (key : Key) {f : ℤ} (hpos : 1 ≤ f)
    (hbelow : b.StaysBelow key f) : b.AccountsFor key f ↔ b.KeepsWeight key f := by
  have hcount := count_ofInt hpos hbelow.1
  obtain ⟨b',r,hstep,hins⟩ : ∃ b' r, b.Step key (UInt32.ofInt f) b' r ∧
      b.insert key (UInt32.ofInt f) = (b',r) := ⟨_,_,b.insert_step key _,rfl⟩
  rw [AccountsFor, hins]
  cases hstep with
  | matched i hmatch hfirst =>
    have hheld := heldCount_update (setVal_slot b i (b.slot i + UInt32.ofInt f))
    rw [count_add_ofInt hpos (hbelow.2 i hmatch hfirst)] at hheld
    refine iff_of_true ?_ ⟨fun _ hnew => absurd hmatch (hnew i),fun hfull => absurd hmatch (hfull.1 i)⟩
    simp only [ElasticSketch.handedWeight_kept]
    omega
  | filled i hnew hempty hfirst =>
    have hslot : ((b.setKey i key.strncpy).setVal i (UInt32.ofInt f)).slot =
        Function.update b.slot i (UInt32.ofInt f) := by simp
    have hheld := heldCount_update hslot
    rw [keepsWeight_of_filled f hnew hempty hfirst]
    simp only [ElasticSketch.handedWeight_kept]
    omega
  | rejected m hnew hfull hmin hstay =>
    have hheld := heldCount_of_slot_eq (setGuard_slot b (b.guard + 1))
    rw [keepsWeight_of_full f hnew hfull]
    simp only [ElasticSketch.handedWeight_rejected]
    omega
  | evicted m hnew hfull hmin hswap =>
    have hslot : (((b.setGuard 0).setKey m key.strncpy).setVal m 0x80000001).slot =
        Function.update b.slot m 0x80000001 := by simp
    have hheld := heldCount_update hslot
    have hone : count 0x80000001 = 1 := rfl
    rw [keepsWeight_of_full f hnew hfull]
    simp only [ElasticSketch.handedWeight_swapped]
    omega

end Bucket

namespace HeavyPart

variable {h : Hashing}

/-- A weighted insertion as a machine step; it puts out the weight handed on. -/
def insertWeight (hp : HeavyPart h) (p : Key × ℤ) : HeavyPart h × ℤ :=
  let r := hp.insert p.1 (UInt32.ofInt p.2)
  (r.1,ElasticSketch.handedWeight p.1 r.2)

def heldCount (hp : HeavyPart h) : ℤ := ∑ b, (hp.buckets b).heldCount

/-- The call is one that the bucket of its key accounts for. -/
def KeepsWeight (hp : HeavyPart h) (p : Key × ℤ) : Prop :=
  1 ≤ p.2 ∧ (hp.buckets (h.pos p.1)).StaysBelow p.1 p.2 ∧ (hp.buckets (h.pos p.1)).KeepsWeight p.1 p.2

theorem heldCount_insertWeight {hp : HeavyPart h} {p : Key × ℤ} (hok : hp.KeepsWeight p) :
    (hp.insertWeight p).1.heldCount + (hp.insertWeight p).2 = hp.heldCount + p.2 := by
  obtain ⟨hpos,hbelow,hkeeps⟩ := hok
  have hbucket := ((hp.buckets (h.pos p.1)).accountsFor_iff_keepsWeight p.1 hpos hbelow).mpr hkeeps
  have hheavy := sum_update_add Bucket.heldCount hp.buckets (h.pos p.1)
    ((hp.buckets (h.pos p.1)).insert p.1 (UInt32.ofInt p.2)).1
  unfold Bucket.AccountsFor at hbucket
  simp only [heldCount, insertWeight, insert, setBucket]
  omega

@[simp] theorem heldCount_clear (h : Hashing) : (clear h).heldCount = 0 := by
  simp [heldCount, Bucket.heldCount, count_eq_mod]

end HeavyPart

namespace ElasticSketch

variable {hh lh : Hashing}

/-- The heavy part of a run of weighted inserts is that of the machine. -/
theorem heavyPart_of_run (ops : List (Key × ℤ)) (s : ElasticSketch hh lh)
    (hrun : Runs.run (fun s p => s.insert p.1 p.2) (clear hh lh) ops = some s) :
    s.heavyPart = Lockstep.final HeavyPart.insertWeight (HeavyPart.clear hh) ops := by
  refine Runs.run_preserves
    (fun ops s => s.heavyPart = Lockstep.final HeavyPart.insertWeight (HeavyPart.clear hh) ops)
    rfl ?_ ops s hrun
  intro ops p s t hs hstep
  rw [Lockstep.final_concat, heavyPart_of_insert hstep, hs]
  rfl

/-- In every reachable state a call accounts for its weight exactly when it keeps it,
and a run of such calls has put the whole weight of its keys into the heavy part or
handed it to the light part. -/
theorem weight_accounted (ops : List (Key × ℤ)) (s : ElasticSketch hh lh)
    (hrun : Runs.run (fun s p => s.insert p.1 p.2) (clear hh lh) ops = some s) :
    (∀ key f, 1 ≤ f → (s.bucket key).StaysBelow key f →
      ((s.bucket key).AccountsFor key f ↔ (s.bucket key).KeepsWeight key f)) ∧
    (Lockstep.AllSteps HeavyPart.insertWeight HeavyPart.KeepsWeight (HeavyPart.clear hh) ops →
      s.heavyPart.heldCount +
        (Lockstep.outputs HeavyPart.insertWeight (HeavyPart.clear hh) ops).sum =
          (ops.map (·.2)).sum) := by
  refine ⟨fun key f hpos hbelow => (s.bucket key).accountsFor_iff_keepsWeight key hpos hbelow,?_⟩
  intro hok
  have hsum := Lockstep.sum_conserved HeavyPart.heldCount (fun out : ℤ => out) (fun p => p.2)
    (fun hp p h => HeavyPart.heldCount_insertWeight h) (HeavyPart.clear hh) ops hok
  rw [heavyPart_of_run ops s hrun]
  simpa using hsum

theorem weight_accounted_one_flow :
    let h : Hashing := ⟨1,by decide,by decide,fun _ => 0⟩
    let s : ElasticSketch h h := ((clear h h).insert (Key.memset 7) 5).get (by decide)
    (s.bucket (Key.memset 7)).AccountsFor (Key.memset 7) 3 ∧
      s.heavyPart.heldCount +
        (Lockstep.outputs HeavyPart.insertWeight (HeavyPart.clear h) [(Key.memset 7,5)]).sum = 5 := by
  intro h s
  obtain ⟨hcall,hrun⟩ := weight_accounted [(Key.memset 7,5)] s (by simp [Runs.run_cons, s])
  refine ⟨(hcall (Key.memset 7) 3 (by decide) (by decide)).mpr (by decide),?_⟩
  exact hrun ⟨⟨by decide,by decide,by decide⟩,trivial⟩

/-- The slot of a flow whose address starts with a zero byte is taken for empty. -/
theorem weight_lost_zero_address :
    let h : Hashing := ⟨1,by decide,by decide,fun _ => 0⟩
    ∃ s : ElasticSketch h h,
      Runs.run (fun s p => s.insert p.1 p.2) (clear h h) [(Key.zeroStr,1)] = some s ∧
        (s.bucket (Key.memset 7)).StaysBelow (Key.memset 7) 1 ∧
        ¬ (s.bucket (Key.memset 7)).AccountsFor (Key.memset 7) 1 := by
  intro h
  let s : ElasticSketch h h := ((clear h h).insert Key.zeroStr 1).get (by decide)
  exact ⟨s,by simp [Runs.run_cons, s],by decide,by decide⟩

end ElasticSketch
end SketchMonitor
