import SketchMonitor.ElasticSketch
import SketchMonitor.Layout

/-!
# The sketch in memory

The device and the server copy the bytes of an `ElasticSketch` and never its members. The
layout says which bytes these are. A sketch is read from them and written over them without
touching the pointers and the padding, and an `int` of the histogram is stored modulo 2^32,
which loses nothing as long as the counters fit in an `int`.
-/

namespace SketchMonitor

open Layout FiniteSums

namespace Key

/-- A key as the array of its bytes. -/
def equivArray : (Fin keyLength13 → UInt8) ≃ Key :=
  (Equiv.vectorEquivFin UInt8 keyLength13).symm.trans
    { toFun := fun v => ⟨v.val,v.property⟩
      invFun := fun k => ⟨k.bytes,k.length_eq⟩
      left_inv := fun _ => rfl
      right_inv := fun _ => rfl }

/-- `char[13]`. -/
def layout : Layout Key := (table byte keyLength13).map equivArray

end Key

namespace Bucket

/-- `struct Bucket`, with the byte behind the keys that aligns the counters. -/
def layout : Layout Bucket :=
  (((table Key.layout maxValidCounter).seq (pad 1)).seq (table word counterPerBucket)).map
    { toFun := fun p => ⟨p.1.1,p.2⟩
      invFun := fun b => ((b.key,()),b.val)
      left_inv := fun _ => rfl
      right_inv := fun _ => rfl }

theorem size_layout : layout.size = 124 := by
  simp only [layout, Layout.map, seq, Key.layout, pad, byte, word, size_table]
  rfl

end Bucket

/-- The members of an `ElasticSketch` other than the pointers, with the words of `mice_dist`. -/
structure SketchImage (hh lh : Hashing) where
  buckets : Fin hh.size → Bucket
  counters : Fin lh.size → Fin 256
  miceDist : Fin 256 → UInt32

namespace SketchImage

variable {hh lh : Hashing}

/-- A `uint8_t`. -/
def counterLayout : Layout (Fin 256) :=
  byte.map
    { toFun := UInt8.toFin
      invFun := UInt8.ofFin
      left_inv := fun _ => rfl
      right_inv := fun _ => rfl }

/-- `HeavyPart`, which ends with `bobhash`. -/
def heavyLayout (hh : Hashing) : Layout (Fin hh.size → Bucket) :=
  padded 0 (table Bucket.layout hh.size) (alignment 8 (hh.size * 124) + 8)

/-- The bytes behind the counters that align `mice_dist`. -/
def countersPadding (lh : Hashing) : ℕ := alignment 4 lh.size

/-- `LightPart`, with `bobhash` in front and `em_fsd_algo` at the end. -/
def lightLayout (lh : Hashing) : Layout ((Fin lh.size → Fin 256) × (Fin 256 → UInt32)) :=
  (padded 8 (table counterLayout lh.size) (countersPadding lh)).seq
    (padded 0 (table word 256) (alignment 8 (lh.size + countersPadding lh) + 8))

/-- `ElasticSketch`. -/
def layout (hh lh : Hashing) : Layout (SketchImage hh lh) :=
  ((heavyLayout hh).seq (lightLayout lh)).map
    { toFun := fun p => ⟨p.1,p.2.1,p.2.2⟩
      invFun := fun s => (s.buckets,s.counters,s.miceDist)
      left_inv := fun _ => rfl
      right_inv := fun _ => rfl }

theorem size_heavyLayout (hh : Hashing) :
    (heavyLayout hh).size = hh.size * 124 + alignment 8 (hh.size * 124) + 8 := by
  rw [heavyLayout, size_padded, size_table, Bucket.size_layout]
  omega

theorem size_lightLayout (lh : Hashing) : (lightLayout lh).size =
    8 + (lh.size + countersPadding lh) + 256 * 4 + alignment 8 (lh.size + countersPadding lh) + 8 := by
  have hcounters : (padded 8 (table counterLayout lh.size) (countersPadding lh)).size =
      8 + lh.size + countersPadding lh := by
    rw [size_padded, size_table]
    exact congrArg (8 + · + countersPadding lh) (mul_one lh.size)
  have hdist : (table word 256).size = 256 * 4 := size_table word 256
  change (padded 8 (table counterLayout lh.size) (countersPadding lh)).size +
    (padded 0 (table word 256) (alignment 8 (lh.size + countersPadding lh) + 8)).size = _
  rw [hcounters, size_padded, hdist]
  omega

theorem size_layout (hh lh : Hashing) :
    (layout hh lh).size = (heavyLayout hh).size + (lightLayout lh).size := rfl

/-- The parts end where a pointer can follow. -/
theorem eight_dvd_size_layout (hh lh : Hashing) : 8 ∣ (layout hh lh).size := by
  obtain ⟨a,ha⟩ := dvd_add_alignment (by decide : 0 < 8) (hh.size * 124)
  obtain ⟨b,hb⟩ := dvd_add_alignment (by decide : 0 < 8) (lh.size + countersPadding lh)
  rw [size_layout, size_heavyLayout, size_lightLayout]
  omega

def toSketch (m : SketchImage hh lh) : ElasticSketch hh lh :=
  ⟨⟨m.buckets⟩,⟨m.counters,fun v => toInt32 (m.miceDist v).toNat⟩⟩

def ofSketch (s : ElasticSketch hh lh) : SketchImage hh lh :=
  ⟨s.heavyPart.buckets,s.lightPart.counters,fun v => UInt32.ofInt (s.lightPart.miceDist v)⟩

theorem toNat_ofInt (x : ℤ) : ((UInt32.ofInt x).toNat : ℤ) = x % 2^32 := by
  have hpos := Int.emod_nonneg x (by decide : (2 : ℤ)^32 ≠ 0)
  have hlt := Int.emod_lt_of_pos x (by decide : (0 : ℤ) < 2^32)
  rw [UInt32.ofInt, UInt32.toNat_ofNat']
  omega

theorem toSketch_ofSketch {s : ElasticSketch hh lh}
    (hs : ∀ v, -2^31 ≤ s.lightPart.miceDist v ∧ s.lightPart.miceDist v < 2^31) :
    (ofSketch s).toSketch = s := by
  have hdist (v) : toInt32 (UInt32.ofInt (s.lightPart.miceDist v)).toNat = s.lightPart.miceDist v := by
    obtain ⟨hlo,hhi⟩ := hs v
    rw [toNat_ofInt, toInt32]
    omega
  simp only [toSketch, ofSketch, hdist]

theorem ofSketch_toSketch (m : SketchImage hh lh) : ofSketch m.toSketch = m := by
  have hdist (v) : UInt32.ofInt (toInt32 (m.miceDist v).toNat) = m.miceDist v := by
    have hword := toNat_ofInt (toInt32 (m.miceDist v).toNat)
    have hlt := (m.miceDist v).toNat_lt
    rw [toInt32] at hword
    rw [← UInt32.toNat_inj, toInt32]
    omega
  simp only [toSketch, ofSketch, hdist]

end SketchImage

namespace LightPart

/-- The histogram stays in the range of an `int`. -/
theorem HistogramOk.bounds {h : Hashing} {l : LightPart h} (hl : l.HistogramOk) (v : Fin 256) :
    -2^31 ≤ l.miceDist v ∧ l.miceDist v < 2^31 := by
  have hsize := h.size_lt
  have hcount : valueCount l.counters v ≤ h.size :=
    (Finset.card_filter_le _ _).trans_eq (by rw [Finset.card_univ, Fintype.card_fin])
  by_cases hv : v = 0
  · rw [hv] at hcount ⊢
    rw [hl.zero]
    omega
  · rw [hl.nonzero v hv]
    omega

end LightPart

namespace ElasticSketch

variable {hh lh : Hashing}

/-- The sketch in a region of memory. -/
def read (hh lh : Hashing) (m : List UInt8) : ElasticSketch hh lh :=
  ((SketchImage.layout hh lh).get m).toSketch

/-- The region with another sketch in it. -/
def write (m : List UInt8) (s : ElasticSketch hh lh) : List UInt8 :=
  (SketchImage.layout hh lh).put m (SketchImage.ofSketch s)

theorem read_write {m : List UInt8} {s : ElasticSketch hh lh}
    (hm : m.length = (SketchImage.layout hh lh).size) (hs : s.lightPart.HistogramOk) :
    read hh lh (write m s) = s := by
  rw [read, write, (SketchImage.layout hh lh).get_put _ _ hm,
    SketchImage.toSketch_ofSketch hs.bounds]

theorem write_read {m : List UInt8} (hm : m.length = (SketchImage.layout hh lh).size) :
    write m (read hh lh m) = m := by
  rw [read, write, SketchImage.ofSketch_toSketch, (SketchImage.layout hh lh).put_get _ hm]

end ElasticSketch
end SketchMonitor
