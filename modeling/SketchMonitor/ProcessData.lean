import Mathlib.Analysis.SpecialFunctions.Log.Basic
import SketchMonitor.Interleaving
import SketchMonitor.Measurement
import SketchMonitor.PacketMass

/-!
# The aggregation threads of the server

`process_data` reads one client's sketch and updates the shared totals of the
report in sections that each run under a lock. It is modelled as the list of
these sections; `Section.exec` is what one of them does. All arithmetic of
`double`s is exact: distribution and cardinality are computed over the reals, and
the entropy sum is kept in a ring `R` with a given `log2`.
-/

namespace SketchMonitor

open FiniteSums

structure FiveTuple where
  srcIP : UInt32
  dstIP : UInt32
  srcPort : UInt16
  dstPort : UInt16
  protocal : UInt8
  deriving DecidableEq

/-- `memcpy(quintet, key, KEY_LENGTH_13)` on a little-endian machine. -/
def FiveTuple.ofKey (k : Key) : FiveTuple :=
  let byte (i : ℕ) : UInt8 := k.bytes.getD i 0
  let half (i : ℕ) : UInt16 := (byte i).toUInt16 ||| (byte (i+1)).toUInt16 <<< 8
  let word (i : ℕ) : UInt32 := (half i).toUInt32 ||| (half (i+2)).toUInt32 <<< 16
  ⟨word 0,word 4,half 8,half 10,byte 12⟩

structure PktDat where
  val : UInt32
  swapFlag : Bool
  deriving DecidableEq

/-- The variables of `makeJSON` that its threads share. -/
structure Totals (R : Type*) where
  cardinality : ℤ
  tot : ℤ
  entr : R
  dist : List (List ℤ)
  heavyPart : List (FiveTuple × PktDat)

/-- The section under `mtx1`, under `mtx2`, under `mtx3` and under `mtx4`. The first
two are handed what `get_distribution` and `get_cardinality` return, if they do. -/
inductive Section (R : Type*)
  | storeDist (clientId : ℤ) (tmpDist : Option (List ℤ))
  | addCardinality (cardinality : Option ℤ)
  | addTot (tot : ℤ) (entr : R)
  | pushHeavy (quintet : FiveTuple) (packet : PktDat)

/-- Conversion of an `int` to the 64-bit `size_t`. -/
def toSizeT (x : ℤ) : ℕ := (x % 2^64).toNat

/-- `max_size()` of a vector of 24-byte vectors. -/
def distMaxSize : ℕ := (2^63 - 1) / 24

/-- `dist.resize(n)`; beyond `max_size()` it throws. -/
def resizeDist (dist : List (List ℤ)) (n : ℕ) : Option (List (List ℤ)) :=
  if n ≤ distMaxSize then some (dist.take n ++ List.replicate (n - dist.length) []) else none

/-- The resize guard compares the `int` on the left with a `size_t`, so it is
converted; the write has no result outside the vector. -/
def storeDist (dist : List (List ℤ)) (clientId : ℤ) (tmpDist : List ℤ) :
    Option (List (List ℤ)) := do
  let slot := toSizeT (clientId - 1)
  let dist ← if slot ≥ dist.length then resizeDist dist (toSizeT clientId) else some dist
  if slot < dist.length then some (dist.set slot tmpDist) else none

namespace Section

variable {R : Type*} [Ring R]

@[simp] def totPart : Section R → ℤ
  | addTot t _ => t
  | _ => 0

@[simp] def entrPart : Section R → R
  | addTot _ e => e
  | _ => 0

@[simp] def cardinalityPart : Section R → ℤ
  | addCardinality c => c.getD 0
  | _ => 0

@[simp] def heavyEntry : Section R → Option (FiveTuple × PktDat)
  | pushHeavy q p => some (q,p)
  | _ => none

/-- One section run on the shared variables. -/
def exec (t : Totals R) (a : Section R) : Option (Totals R) :=
  match a with
  | storeDist clientId tmpDist =>
    (tmpDist.bind (SketchMonitor.storeDist t.dist clientId)).map fun dist => { t with dist := dist }
  | addCardinality c =>
    c.map fun c => { t with cardinality := toInt32 (t.cardinality + c) }
  | addTot d e => some { t with tot := toInt32 (t.tot + d), entr := t.entr + e }
  | pushHeavy q p => some { t with heavyPart := t.heavyPart ++ [(q,p)] }

end Section

/-- A registered device as its aggregation thread sees it: the last octet of its
address, the copied sketch, and the contents of the local array that
`get_distribution` looks up. -/
structure Client (hh lh : Hashing) where
  octet : Fin 256
  sketch : ElasticSketch hh lh
  buffers : ElasticSketch.Buffers hh

namespace Client

variable {hh lh : Hashing} (c : Client hh lh)

/-- `num[3] - 1`, sent by the device and stored in `client_id`. -/
def clientId : ℤ := c.octet - 1

noncomputable def tmpDist : Option (List ℤ) := c.sketch.getDistribution Real.exp c.buffers

noncomputable def cardinality : Option ℤ := c.sketch.getCardinality Real.log

end Client

section ProcessData

variable {R : Type*} [Ring R] (log2 : ℤ → R) {hh lh : Hashing}

/-- The loop over `mice_dist[1..255]`. -/
def lightSections (l : LightPart lh) : List (Section R) :=
  (List.finRange 255).map fun i =>
    let t := toInt32 (l.miceDist i.succ * (i.succ : ℕ))
    .addTot t (t * log2 (i.succ : ℕ))

/-- The value of a slot after the light estimate of its key is merged into a
flagged counter. -/
def mergedVal (s : ElasticSketch hh lh) (i : Fin hh.size) (j : Fin maxValidCounter) : UInt32 :=
  let b := s.heavyPart.buckets i
  let exVal := s.lightPart.query (b.key j)
  getCounterVal
    (if highestBitIs1 (b.slot j) ∧ exVal ≠ 0 then b.slot j + UInt32.ofInt exVal else b.slot j)

/-- A flagged slot first takes its light estimate out of the totals. -/
def estimateSections (s : ElasticSketch hh lh) (i : Fin hh.size) (j : Fin maxValidCounter) :
    List (Section R) :=
  let b := s.heavyPart.buckets i
  let exVal := s.lightPart.query (b.key j)
  if highestBitIs1 (b.slot j) ∧ exVal ≠ 0 then [.addTot (-exVal) (-xlog2 log2 exVal)] else []

/-- Then a slot with a nonzero merged value is added and reported. -/
def valueSections (s : ElasticSketch hh lh) (i : Fin hh.size) (j : Fin maxValidCounter) :
    List (Section R) :=
  let b := s.heavyPart.buckets i
  let val := mergedVal s i j
  if val ≠ 0 then
    [.addTot val.toNat (xlog2 log2 val.toNat),
      .pushHeavy (FiveTuple.ofKey (b.key j)) ⟨val,highestBitIs1 (b.slot j)⟩]
  else []

/-- The body of the loop over the heavy slots. -/
def slotSections (s : ElasticSketch hh lh) (i : Fin hh.size) (j : Fin maxValidCounter) :
    List (Section R) := estimateSections log2 s i j ++ valueSections log2 s i j

def heavySections (s : ElasticSketch hh lh) : List (Section R) :=
  (List.finRange hh.size).flatMap fun i =>
    (List.finRange maxValidCounter).flatMap fun j => slotSections log2 s i j

noncomputable def processData (c : Client hh lh) : List (Section R) :=
  .storeDist c.clientId c.tmpDist :: .addCardinality c.cardinality ::
    (lightSections log2 c.sketch.lightPart ++ heavySections log2 c.sketch)

/-- `tot`, an `int`, after sections that start from zero. -/
def runTot (l : List (Section R)) : ℤ := l.foldl (fun tot a => toInt32 (tot + a.totPart)) 0

/-- `entr` after sections that start from zero. -/
def runEntr (l : List (Section R)) : R := l.foldl (fun entr a => entr + a.entrPart) 0

omit [Ring R] in
theorem runTot_eq (l : List (Section R)) : runTot l = toInt32 (l.map Section.totPart).sum :=
  foldl_toInt32_add l Section.totPart

theorem runEntr_eq (l : List (Section R)) : runEntr l = (l.map Section.entrPart).sum := by
  rw [runEntr, List.sum_eq_foldl, List.foldl_map]

end ProcessData
end SketchMonitor
