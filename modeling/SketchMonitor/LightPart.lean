import SketchMonitor.FiniteSums
import SketchMonitor.Param
import SketchMonitor.Runs

/-!
# The light part

A table of saturating byte counters with an incrementally maintained histogram.
Both insertions amount to `setCounter` at the position of the key, so the
histogram argument is made once, for `setCounter`. A write to `mice_dist` outside
its 256 entries is an error and has no result.
-/

namespace SketchMonitor

open FiniteSums

/-- `counters` are `uint8_t`; `mice_dist` has one entry for each of their values. -/
structure LightPart (h : Hashing) where
  counters : Fin h.size → Fin 256
  miceDist : Fin 256 → ℤ

/-- `x < 255 ? x : 255`. -/
def cap255 (x : ℤ) : ℤ := if x < 255 then x else 255

theorem cap255_eq_min (x : ℤ) : cap255 x = min x 255 := by
  unfold cap255
  split_ifs <;> omega

theorem cap255_toNat_lt (x : ℤ) : (cap255 x).toNat < 256 := by
  rw [cap255_eq_min]
  omega

namespace LightPart

variable {h : Hashing}

/-- The constructor and `clear()`. -/
def clear (h : Hashing) : LightPart h := ⟨fun _ => 0,fun _ => 0⟩

/-- Store a counter; `mice_dist[old_val]--` and `mice_dist[new_val]++`. -/
def setCounter (l : LightPart h) (pos : Fin h.size) (newVal : Fin 256) : LightPart h :=
  let oldVal := l.counters pos
  let dist := Function.update l.miceDist oldVal (l.miceDist oldVal - 1)
  ⟨Function.update l.counters pos newVal,Function.update dist newVal (dist newVal + 1)⟩

def insert (l : LightPart h) (key : Key) (f : ℤ) : Option (LightPart h) :=
  let pos := h.pos key
  let newVal := cap255 (toInt32 (l.counters pos + f))
  if 0 ≤ newVal then some (l.setCounter pos ⟨newVal.toNat,cap255_toNat_lt _⟩) else none

def swapInsert (l : LightPart h) (key : Key) (f : ℤ) : LightPart h :=
  let pos := h.pos key
  let f₁ := cap255 f
  if (l.counters pos : ℤ) < f₁ then l.setCounter pos ⟨f₁.toNat,cap255_toNat_lt f⟩ else l

/-- `(int)counters[pos]`. -/
def query (l : LightPart h) (key : Key) : ℤ := l.counters (h.pos key)

@[simp] theorem clear_counters (i : Fin h.size) : (clear h).counters i = 0 := rfl

@[simp] theorem setCounter_counters (l : LightPart h) (pos : Fin h.size) (v : Fin 256) :
    (l.setCounter pos v).counters = Function.update l.counters pos v := rfl

theorem setCounter_miceDist (l : LightPart h) (pos : Fin h.size) (v w : Fin 256) :
    (l.setCounter pos v).miceDist w + (if l.counters pos = w then 1 else 0) =
      l.miceDist w + if v = w then 1 else 0 := by
  by_cases hv : v = w <;> by_cases ho : l.counters pos = w <;>
    simp [setCounter, Function.update_apply, hv, ho, eq_comm]
  all_goals simp_all [eq_comm]

/-- Storing the value already there changes nothing. -/
theorem setCounter_self (l : LightPart h) (pos : Fin h.size) :
    l.setCounter pos (l.counters pos) = l := by
  cases l with
  | mk counters miceDist => simp [setCounter]

theorem insert_eq_setCounter (l : LightPart h) (key : Key) {f : ℤ} (hf : 0 ≤ f)
    (hb : l.counters (h.pos key) + f < 2^31) :
    ∃ v : Fin 256, l.insert key f = some (l.setCounter (h.pos key) v) ∧
      (v : ℤ) = min (l.counters (h.pos key) + f) 255 := by
  have hint : toInt32 (l.counters (h.pos key) + f) = l.counters (h.pos key) + f :=
    toInt32_of_bounds (by omega) hb
  have hpos : 0 ≤ cap255 (l.counters (h.pos key) + f) := by
    rw [cap255_eq_min]
    omega
  refine ⟨⟨(cap255 (l.counters (h.pos key) + f)).toNat,cap255_toNat_lt _⟩,?_,?_⟩
  · simp [insert, hint, hpos]
  · simp only [cap255_eq_min] at hpos ⊢
    omega

theorem swapInsert_eq_setCounter (l : LightPart h) (key : Key) (f : ℤ) :
    ∃ v : Fin 256, l.swapInsert key f = l.setCounter (h.pos key) v ∧
      (v : ℤ) = max (l.counters (h.pos key) : ℤ) (min f 255) := by
  by_cases hlt : (l.counters (h.pos key) : ℤ) < cap255 f
  · refine ⟨⟨(cap255 f).toNat,cap255_toNat_lt f⟩,by simp [swapInsert, hlt],?_⟩
    have hmin := cap255_eq_min f
    simp only
    omega
  · refine ⟨l.counters (h.pos key),by simp [swapInsert, hlt, setCounter_self],?_⟩
    rw [cap255_eq_min] at hlt
    omega

/-- The histogram matches the counters, except that the zero bin starts at zero
and so stays `counter_num` below the number of zero counters. -/
structure HistogramOk (l : LightPart h) : Prop where
  nonzero : ∀ v, v ≠ 0 → l.miceDist v = valueCount l.counters v
  zero : l.miceDist 0 = valueCount l.counters 0 - h.size

theorem HistogramOk.clear (h : Hashing) : HistogramOk (clear h) where
  nonzero v hv := by simp [LightPart.clear, Ne.symm hv]
  zero := by simp [LightPart.clear]

theorem HistogramOk.setCounter {l : LightPart h} (hl : HistogramOk l) (pos : Fin h.size)
    (v : Fin 256) : HistogramOk (l.setCounter pos v) := by
  have hcount (w : Fin 256) := valueCount_update l.counters pos v w
  have hdist (w : Fin 256) := setCounter_miceDist l pos v w
  constructor
  · intro w hw
    have h₁ := hcount w
    have h₂ := hdist w
    have h₃ := hl.nonzero w hw
    rw [setCounter_counters]
    split_ifs at h₁ h₂ <;> omega
  · have h₁ := hcount 0
    have h₂ := hdist 0
    have h₃ := hl.zero
    rw [setCounter_counters]
    split_ifs at h₁ h₂ <;> omega

theorem HistogramOk.insert {l l' : LightPart h} (hl : HistogramOk l) {key : Key} {f : ℤ}
    (hi : l.insert key f = some l') : HistogramOk l' := by
  simp only [LightPart.insert, Option.ite_none_right_eq_some, Option.some.injEq] at hi
  obtain ⟨-,rfl⟩ := hi
  exact hl.setCounter _ _

theorem HistogramOk.swapInsert {l : LightPart h} (hl : HistogramOk l) (key : Key) (f : ℤ) :
    HistogramOk (l.swapInsert key f) := by
  obtain ⟨v,hv,-⟩ := swapInsert_eq_setCounter l key f
  rw [hv]
  exact hl.setCounter _ _

/-- What the nonzero bins weigh is what the counters hold. -/
theorem HistogramOk.sum_eq {l : LightPart h} (hl : HistogramOk l) {M : Type*} [AddCommGroup M]
    (w : Fin 256 → M) (hw : w 0 = 0) : ∑ v, l.miceDist v • w v = ∑ i, w (l.counters i) := by
  rw [sum_eq_sum_valueCount]
  refine Finset.sum_congr rfl fun v _ => ?_
  by_cases hv : v = 0
  · simp [hv, hw]
  · rw [hl.nonzero v hv, natCast_zsmul]

/-- One call on a constructed light part. -/
inductive Op
  | insert (key : Key) (f : ℤ)
  | swapInsert (key : Key) (f : ℤ)
  | clear

/-- The weight passed leaves room for a counter on top of it. -/
def Op.Bounded : Op → Prop
  | .insert _ f => 0 ≤ f ∧ f < 2^31 - 256
  | .swapInsert _ f => 0 ≤ f ∧ f < 2^31 - 256
  | .clear => True

def apply (l : LightPart h) : Op → Option (LightPart h)
  | .insert key f => l.insert key f
  | .swapInsert key f => some (l.swapInsert key f)
  | .clear => some (LightPart.clear h)

theorem HistogramOk.apply {l : LightPart h} (hl : HistogramOk l) (op : Op) (hop : op.Bounded) :
    ∃ l', l.apply op = some l' ∧ HistogramOk l' := by
  cases op with
  | insert key f =>
    obtain ⟨hf,hb⟩ := hop
    obtain ⟨v,hv,-⟩ := insert_eq_setCounter l key hf (by omega)
    exact ⟨_,hv,hl.setCounter _ _⟩
  | swapInsert key f => exact ⟨_,rfl,hl.swapInsert key f⟩
  | clear => exact ⟨_,rfl,HistogramOk.clear h⟩

/-- After any calls the histogram is that of the counters, and the weighted sum
of its bins is the sum of the counters. -/
theorem histogram_matches_counters (h : Hashing) (ops : List Op) (hops : ∀ op ∈ ops, op.Bounded) :
    ∃ l, Runs.run apply (LightPart.clear h) ops = some l ∧
      (∀ i, (0 : ℤ) ≤ l.counters i ∧ (l.counters i : ℤ) ≤ 255) ∧ HistogramOk l ∧
      ∑ v : Fin 256, (v : ℤ) * l.miceDist v = ∑ i, (l.counters i : ℤ) := by
  obtain ⟨l,hrun,hl⟩ := Runs.run_total (fun ops => ∀ op ∈ ops, op.Bounded)
    (fun _ l => HistogramOk l) (fun ops op hok o ho => hok o (by simp [ho])) (HistogramOk.clear h)
    (fun ops op l hok hl => hl.apply op (hok op (by simp))) ops hops
  refine ⟨l,hrun,fun i => by omega,hl,?_⟩
  have hsum := hl.sum_eq (fun v => (v : ℤ)) rfl
  simpa [mul_comm] using hsum

theorem histogram_matches_counters_three_calls :
    ∃ l : LightPart ⟨2,by decide,by decide,fun _ => 0⟩, Runs.run apply (LightPart.clear _)
        [.insert Key.zeroStr 300,.clear,.swapInsert Key.zeroStr 7] = some l ∧
      (∀ i, (0 : ℤ) ≤ l.counters i ∧ (l.counters i : ℤ) ≤ 255) ∧ HistogramOk l ∧
      ∑ v : Fin 256, (v : ℤ) * l.miceDist v = ∑ i, (l.counters i : ℤ) :=
  histogram_matches_counters _ _ (by simp [Op.Bounded])

end LightPart
end SketchMonitor
