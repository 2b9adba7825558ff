import Mathlib.Algebra.Order.Floor.Ring
import SketchMonitor.ElasticSketch
import SketchMonitor.EMFSD

/-!
# The measurement tasks of one sketch

Cardinality, entropy and flow size distribution each start from the light part and
then correct it slot by slot with the heavy part. Real arithmetic is that of a ring or
field with the logarithm or exponential given. The local array `key` of a loop is an
argument where the loop does not fill it.
-/

namespace SketchMonitor

section Conversion

variable {K : Type*} [Field K] [LinearOrder K] [FloorRing K]

/-- A `double` without its fractional part. -/
def trunc (x : K) : ℤ := if 0 ≤ x then ⌊x⌋ else ⌈x⌉

/-- Conversion of a `double` to `int`, which is undefined for values that do not fit. -/
def toInt (x : K) : Option ℤ := if -2^31 ≤ trunc x ∧ trunc x < 2^31 then some (trunc x) else none

end Conversion

namespace LightPart

variable {h : Hashing} (l : LightPart h)

/-- The sum of `mice_dist[1..255]`. -/
def miceCard : ℤ := (List.finRange 255).foldl (fun card i => toInt32 (card + l.miceDist i.succ)) 0

/-- `(counter_num - mice_card) / (double)counter_num`. -/
def rate (K : Type*) [Field K] : K := (toInt32 (h.size - l.miceCard) : K) / h.size

/-- The logarithm has no value where the rate is not positive. -/
def getCardinality {K : Type*} [Field K] [LinearOrder K] [FloorRing K] (log : K → K) : Option ℤ :=
  if 0 < l.rate K then toInt (h.size * log (1 / l.rate K)) else none

/-- `tot` and `entr` are passed by reference. -/
def getEntropy {R : Type*} [Ring R] (log2 : ℤ → R) (t : ℤ × R) : ℤ × R :=
  (List.finRange 255).foldl (fun t i =>
    let d := toInt32 (l.miceDist i.succ * (i.succ : ℕ))
    (toInt32 (t.1 + d),t.2 + d * log2 (i.succ : ℕ))) t

/-- The counters as `set_counters` receives them. -/
def tmpCounters : List ℕ := List.ofFn fun i => (l.counters i : ℕ)

/-- `em_fsd_algo` after its ten epochs. -/
def emFsdAlgo {K : Type*} [Field K] (exp : K → K) : EMFSD K := EMFSD.epochs exp l.tmpCounters 10

def getDistribution {K : Type*} [Field K] [LinearOrder K] [FloorRing K] (exp : K → K) :
    Option (List ℤ) :=
  let e := l.emFsdAlgo exp
  (List.range e.counterDist.length).mapM fun i => toInt (e.ns i)

end LightPart

/-- `val` after a light estimate has been added to a flagged counter, less the flag. -/
def mergedWith (v : UInt32) (exVal : ℤ) : UInt32 :=
  getCounterVal (if highestBitIs1 v ∧ exVal ≠ 0 then v + UInt32.ofInt exVal else v)

theorem mergedWith_toNat (v : UInt32) (ex : ℕ) :
    (mergedWith v ex).toNat = if highestBitIs1 v then (count v + ex) % 2^31 else count v :=
  count_merge v ex

/-- `x * log2(x)`. -/
def xlog2 {R : Type*} [Ring R] (log2 : ℤ → R) (x : ℤ) : R := x * log2 x

namespace ElasticSketch

variable {hh lh : Hashing}

/-- The slots in the order of the two nested loops. -/
def slots (hh : Hashing) : List (Fin hh.size × Fin maxValidCounter) :=
  (List.finRange hh.size).flatMap fun i => (List.finRange maxValidCounter).map (i,·)

/-- `heavy_part.buckets[i].key[j]` and `heavy_part.buckets[i].val[j]`. -/
def slotKey (s : ElasticSketch hh lh) (ij : Fin hh.size × Fin maxValidCounter) : Key :=
  (s.heavyPart.buckets ij.1).key ij.2

def slotVal (s : ElasticSketch hh lh) (ij : Fin hh.size × Fin maxValidCounter) : UInt32 :=
  (s.heavyPart.buckets ij.1).slot ij.2

theorem mem_slots (ij : Fin hh.size × Fin maxValidCounter) : ij ∈ slots hh :=
  List.mem_flatMap.mpr ⟨ij.1,List.mem_finRange _,List.mem_map.mpr ⟨ij.2,List.mem_finRange _,rfl⟩⟩

theorem sum_slots {M : Type*} [AddCommMonoid M] (φ : Fin hh.size × Fin maxValidCounter → M) :
    ((slots hh).map φ).sum = ∑ ij, φ ij := by
  rw [slots, FiniteSums.sum_map_flatMap_finRange, Fintype.sum_prod_type]
  simp only [List.map_map, Function.comp_def, Fin.sum_univ_def]

/-- The slot's share in `card`. -/
def mergeCard (v : UInt32) (exVal card : ℤ) : Option ℤ := do
  let card ← if highestBitIs1 v ∧ exVal ≠ 0 then checkInt (card - 1) else some card
  if mergedWith v exVal ≠ 0 then checkInt (card + 1) else some card

/-- The key is copied by `strncpy`. -/
def getCardinality {K : Type*} [Field K] [LinearOrder K] [FloorRing K] (log : K → K)
    (s : ElasticSketch hh lh) : Option ℤ :=
  (s.lightPart.getCardinality log).bind fun card => (slots hh).foldlM (fun card ij =>
    mergeCard (s.slotVal ij) (s.lightPart.query (s.slotKey ij).strncpy) card) card

/-- The contents of the local array `key` in each round. `strncmp` stands where
`get_cardinality` has `strncpy`, and leaves the array as it is. -/
abbrev Buffers (hh : Hashing) := Fin hh.size × Fin maxValidCounter → Key

def mergeEntropy {R : Type*} [Ring R] (log2 : ℤ → R) (v : UInt32) (exVal : ℤ) (t : ℤ × R) : ℤ × R :=
  let t := if highestBitIs1 v ∧ exVal ≠ 0 then
    (toInt32 (t.1 - exVal),t.2 - xlog2 log2 exVal) else t
  let val := mergedWith v exVal
  if val ≠ 0 then (toInt32 (t.1 + val.toNat),t.2 + xlog2 log2 val.toNat) else t

/-- `tot` and `entr` at the end of `get_entropy`. -/
def entropyTotals {R : Type*} [Ring R] (log2 : ℤ → R) (buffers : Buffers hh)
    (s : ElasticSketch hh lh) : ℤ × R :=
  (slots hh).foldl (fun t ij =>
    mergeEntropy log2 (s.slotVal ij) (s.lightPart.query (buffers ij)) t)
    (s.lightPart.getEntropy log2 (0,0))

def getEntropy {R : Type*} [DivisionRing R] (log2 : ℤ → R) (buffers : Buffers hh)
    (s : ElasticSketch hh lh) : R :=
  let t := s.entropyTotals log2 buffers;
  -t.2 / t.1 + log2 t.1

/-- `dist[i] += d`, undefined outside the vector. -/
def addAt (dist : List ℤ) (i : ℕ) (d : ℤ) : Option (List ℤ) :=
  if i < dist.length then (checkInt (dist.getD i 0 + d)).map (dist.set i) else none

/-- `dist[ex_val]--` for a flagged slot with a light estimate. -/
def takeOut (v : UInt32) (exVal : ℤ) (dist : List ℤ) : Option (List ℤ) :=
  if highestBitIs1 v ∧ exVal ≠ 0 then addAt dist exVal.toNat (-1) else some dist

/-- `dist[val]++` after `dist.resize(val + 1)` where needed. `val + 1` is undefined for the
largest `int`. -/
def putIn (val : ℕ) (dist : List ℤ) : Option (List ℤ) :=
  if val = 0 then some dist
  else if val + 1 = 2^31 then none
  else addAt (dist ++ List.replicate (val + 1 - dist.length) 0) val 1

def mergeDist (v : UInt32) (exVal : ℤ) (dist : List ℤ) : Option (List ℤ) :=
  (takeOut v exVal dist).bind (putIn (mergedWith v exVal).toNat)

def getDistribution {K : Type*} [Field K] [LinearOrder K] [FloorRing K] (exp : K → K)
    (buffers : Buffers hh) (s : ElasticSketch hh lh) : Option (List ℤ) :=
  (s.lightPart.getDistribution exp).bind fun dist => (slots hh).foldlM (fun dist ij =>
    mergeDist (s.slotVal ij) (s.lightPart.query (buffers ij)) dist) dist

end ElasticSketch
end SketchMonitor
