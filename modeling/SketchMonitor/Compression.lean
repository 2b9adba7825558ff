import Mathlib.Data.Nat.ModEq
import SketchMonitor.ElasticSketch

/-!
# The compressed light part

`compress` keeps, for each residue modulo the width, the largest counter at the
positions of that residue; the last stripe may be shorter than the others. It writes
`uint8_t` and `query_compressed_part` reads `char`, which is signed, so a byte from
128 on comes back 256 smaller.
-/

namespace SketchMonitor

variable {hh lh : Hashing}

/-- `(int)` of a `char` that holds this byte. -/
def ofChar (b : Fin 256) : ℤ := if (b : ℤ) < 128 then (b : ℤ) else (b : ℤ) - 256

theorem ofChar_eq_iff (b : Fin 256) : ofChar b = b ↔ b < 128 := by
  unfold ofChar
  split_ifs with hb <;> omega

namespace LightPart

variable {h : Hashing}

/-- `counter_num / ratio`. -/
def getCompressWidth (h : Hashing) (ratio : ℕ) : ℕ := h.size / ratio

/-- The loop over `j`, which only runs for a positive width. An `int` that grows past its
range has no result. -/
def maxLoop (l : LightPart h) (width j : ℕ) (maxVal : Fin 256) : Option (Fin 256) :=
  if hj : j < h.size then
    let counter := l.counters ⟨j,hj⟩
    let maxVal' := if counter > maxVal then counter else maxVal
    if 0 < width ∧ j + width < 2^31 then l.maxLoop width (j+width) maxVal' else none
  else some maxVal
termination_by h.size - j

/-- What `compress` writes to `dst`. -/
def compress (l : LightPart h) (ratio : ℕ) : Option (List (Fin 256)) :=
  let width := getCompressWidth h ratio
  (List.range (min width h.size)).mapM fun i => l.maxLoop width i ⟨0,by decide⟩

/-- A read past the end of the compressed part has no result. -/
def queryCompressedPart (h : Hashing) (key : Key) (compressPart : List (Fin 256))
    (compressCounterNum : ℕ) : Option ℤ :=
  (compressPart[(h.pos key : ℕ) % compressCounterNum]?).map ofChar

/-- The largest counter among the positions of one residue. -/
def stripeMax (l : LightPart h) (width r : ℕ) : ℕ :=
  ({p : Fin h.size | (p : ℕ) % width = r} : Finset _).sup fun p => (l.counters p : ℕ)

/-- The query of the compressed part is the largest counter of the stripe of the key. -/
def CompressedFaithful (l : LightPart h) (ratio : ℕ) (key : Key) : Prop :=
  ∃ dst v, l.compress ratio = some dst ∧
    queryCompressedPart h key dst (getCompressWidth h ratio) = some v ∧
    v = l.stripeMax (getCompressWidth h ratio) ((h.pos key : ℕ) % getCompressWidth h ratio) ∧
    l.query key ≤ v ∧ (ratio = 1 → v = l.query key)

theorem getCompressWidth_pos {h : Hashing} {ratio : ℕ} (h1 : 1 ≤ ratio) (hr : ratio ≤ h.size) :
    0 < getCompressWidth h ratio := Nat.div_pos hr h1

theorem getCompressWidth_le (h : Hashing) (ratio : ℕ) : getCompressWidth h ratio ≤ h.size :=
  Nat.div_le_self _ _

/-- The later positions of a stripe are this one and those from the next one on. -/
theorem stripe_from {width j p : ℕ} :
    (j ≤ p ∧ p % width = j % width) ↔
      p = j ∨ (j + width ≤ p ∧ p % width = (j + width) % width) := by
  rw [Nat.add_mod_right]
  constructor
  · rintro ⟨hle,hmod⟩
    rcases hle.eq_or_lt with rfl | hlt
    · exact Or.inl rfl
    · exact Or.inr ⟨Nat.ModEq.add_le_of_lt hmod.symm hlt,hmod⟩
  · rintro (rfl | ⟨hle,hmod⟩)
    · exact ⟨le_rfl,rfl⟩
    · exact ⟨by omega,hmod⟩

/-- The loop ends with the least bound of its start value and the rest of its stripe. -/
theorem maxLoop_spec (l : LightPart h) {width : ℕ} (hw : 0 < width)
    (hfit : h.size + width ≤ 2^31) (j : ℕ) (maxVal : Fin 256) :
    ∃ r, l.maxLoop width j maxVal = some r ∧ ∀ b, r ≤ b ↔
      maxVal ≤ b ∧ ∀ p : Fin h.size, j ≤ p ∧ (p : ℕ) % width = j % width → l.counters p ≤ b := by
  fun_induction l.maxLoop width j maxVal with
  | case1 j maxVal hj counter maxVal' hstep ih =>
    obtain ⟨r,hr,hle⟩ := ih
    refine ⟨r,hr,fun b => ?_⟩
    have hmax : maxVal' ≤ b ↔ maxVal ≤ b ∧ counter ≤ b := by
      simp only [maxVal']
      split_ifs with hc <;> grind
    rw [hle, hmax, and_assoc]
    refine and_congr_right fun _ => ⟨?_,?_⟩
    · rintro ⟨hcount,hrest⟩ p hp
      rcases stripe_from.mp hp with hpj | hnext
      · obtain rfl : p = ⟨j,hj⟩ := Fin.ext hpj
        exact hcount
      · exact hrest p hnext
    · intro hall
      exact ⟨hall ⟨j,hj⟩ ⟨le_rfl,rfl⟩,fun p hp => hall p (stripe_from.mpr (Or.inr hp))⟩
  | case2 j maxVal hj hstep => omega
  | case3 j maxVal hj =>
    refine ⟨maxVal,rfl,fun b => ?_⟩
    simp only [iff_self_and]
    intro _ p hp
    omega

/-- The stripe of the last counter steps past `INT_MAX` when its next position does. -/
theorem maxLoop_eq_none (l : LightPart h) {width : ℕ} (hfit : 2^31 < h.size + width) (j : ℕ)
    (maxVal : Fin 256) (hj : j < h.size) (hmod : j % width = (h.size - 1) % width) :
    l.maxLoop width j maxVal = none := by
  fun_induction l.maxLoop width j maxVal with
  | case1 j maxVal hj' counter maxVal' hstep ih =>
    have hlast : j + width ≤ h.size - 1 := Nat.ModEq.add_le_of_lt hmod (by omega)
    exact ih (by omega) (by rw [Nat.add_mod_right, hmod])
  | case2 => rfl
  | case3 j maxVal hj' => exact absurd hj hj'

theorem stripeMax_le_iff (l : LightPart h) (width r b : ℕ) :
    l.stripeMax width r ≤ b ↔ ∀ p : Fin h.size, (p : ℕ) % width = r → (l.counters p : ℕ) ≤ b := by
  simp [stripeMax]

theorem stripeMax_lt_iff (l : LightPart h) (width r : ℕ) : l.stripeMax width r < 128 ↔
    ∀ p : Fin h.size, (p : ℕ) % width = r → l.counters p < 128 := by
  rw [Nat.lt_iff_le_pred (by norm_num), stripeMax_le_iff]
  refine forall_congr' fun p => imp_congr_right fun _ => ?_
  omega

/-- The loop started at a residue finds the largest counter of its stripe. -/
theorem maxLoop_eq_stripeMax (l : LightPart h) {width : ℕ} (hfit : h.size + width ≤ 2^31) {i : ℕ}
    (hi : i < width) : ∃ r : Fin 256, l.maxLoop width i 0 = some r ∧
      (r : ℕ) = l.stripeMax width i := by
  obtain ⟨r,hr,hle⟩ := l.maxLoop_spec (Nat.zero_lt_of_lt hi) hfit i 0
  refine ⟨r,hr,le_antisymm ?_ ?_⟩
  · have hcap : l.stripeMax width i < 256 := by
      rw [Nat.lt_iff_le_pred (by norm_num), stripeMax_le_iff]
      intro p _
      omega
    have hbound : r ≤ ⟨l.stripeMax width i,hcap⟩ := by
      rw [hle]
      refine ⟨Fin.zero_le _,fun p hp => ?_⟩
      rw [Nat.mod_eq_of_lt hi] at hp
      exact (l.stripeMax_le_iff width i _).mp le_rfl p hp.2
    exact hbound
  · rw [stripeMax_le_iff]
    intro p hp
    refine ((hle r).mp le_rfl).2 p ⟨?_,by rw [hp, Nat.mod_eq_of_lt hi]⟩
    rw [← hp]
    exact Nat.mod_le _ _

/-- The compressed part has one entry for each residue, unless a stripe leaves the `int`s. -/
theorem compress_eq_some (l : LightPart h) (ratio : ℕ)
    (hfit : h.size + getCompressWidth h ratio ≤ 2^31) :
    ∃ dst, l.compress ratio = some dst ∧ ∀ i < getCompressWidth h ratio,
      ∃ r : Fin 256, dst[i]? = some r ∧ (r : ℕ) = l.stripeMax (getCompressWidth h ratio) i := by
  have hloop (i : ℕ) (hi : i < getCompressWidth h ratio) := l.maxLoop_eq_stripeMax hfit hi
  choose! g hg hmax using hloop
  refine ⟨(List.range (min (getCompressWidth h ratio) h.size)).map g,
    Runs.mapM_eq_some_map fun i hi => hg i ?_,fun i hi => ⟨g i,?_,hmax i hi⟩⟩
  · exact lt_of_lt_of_le (List.mem_range.mp hi) (min_le_left _ _)
  · rw [List.getElem?_map, List.getElem?_range, Option.map_some]
    exact lt_min hi (lt_of_lt_of_le hi (getCompressWidth_le h ratio))

theorem compress_eq_none (l : LightPart h) {ratio : ℕ} (hw : 0 < getCompressWidth h ratio)
    (hfit : 2^31 < h.size + getCompressWidth h ratio) : l.compress ratio = none := by
  rw [Option.eq_none_iff_forall_ne_some]
  intro dst hdst
  have hi : (h.size - 1) % getCompressWidth h ratio < min (getCompressWidth h ratio) h.size := by
    have hpos := h.size_pos
    have hle := Nat.mod_le (h.size - 1) (getCompressWidth h ratio)
    exact lt_min (Nat.mod_lt _ hw) (by omega)
  obtain ⟨r,hr⟩ := Runs.exists_of_mapM_eq_some hdst (List.mem_range.mpr hi)
  rw [l.maxLoop_eq_none hfit _ _ (lt_of_lt_of_le hi (min_le_right _ _)) (Nat.mod_mod _ _)] at hr
  cases hr

/-- With enough room the query reads the largest counter of the stripe as a `char`. -/
theorem queryCompressedPart_compress (l : LightPart h) (ratio : ℕ) (key : Key)
    (hw : 0 < getCompressWidth h ratio) (hfit : h.size + getCompressWidth h ratio ≤ 2^31) :
    ∃ dst, ∃ r : Fin 256, l.compress ratio = some dst ∧
      queryCompressedPart h key dst (getCompressWidth h ratio) = some (ofChar r) ∧
      (r : ℕ) = l.stripeMax (getCompressWidth h ratio)
        ((h.pos key : ℕ) % getCompressWidth h ratio) := by
  obtain ⟨dst,hdst,hread⟩ := l.compress_eq_some ratio hfit
  obtain ⟨r,hr,hmax⟩ := hread _ (Nat.mod_lt (h.pos key) hw)
  exact ⟨dst,r,hdst,by rw [queryCompressedPart, hr, Option.map_some],hmax⟩

theorem query_le_stripeMax (l : LightPart h) (width : ℕ) (key : Key) :
    l.query key ≤ l.stripeMax width ((h.pos key : ℕ) % width) := by
  have hle := (l.stripeMax_le_iff width _ _).mp le_rfl (h.pos key) rfl
  exact Int.ofNat_le.mpr hle

/-- At full width every stripe is one counter. -/
theorem stripeMax_size (l : LightPart h) (key : Key) :
    (l.stripeMax h.size ((h.pos key : ℕ) % h.size) : ℤ) = l.query key := by
  refine le_antisymm ?_ (l.query_le_stripeMax h.size key)
  refine Int.ofNat_le.mpr ((l.stripeMax_le_iff _ _ _).mpr fun p hp => ?_)
  rw [Nat.mod_eq_of_lt p.isLt, Nat.mod_eq_of_lt (h.pos key).isLt] at hp
  rw [Fin.ext hp]

theorem compressedFaithful_iff (l : LightPart h) (ratio : ℕ) (key : Key) (h1 : 1 ≤ ratio)
    (hr : ratio ≤ h.size) : l.CompressedFaithful ratio key ↔
      h.size + getCompressWidth h ratio ≤ 2^31 ∧
      ∀ p : Fin h.size, (p : ℕ) % getCompressWidth h ratio =
        (h.pos key : ℕ) % getCompressWidth h ratio → l.counters p < 128 := by
  have hw := getCompressWidth_pos h1 hr
  rcases le_or_gt (h.size + getCompressWidth h ratio) (2^31) with hfit | hfit
  · obtain ⟨dst,r,hdst,hquery,hmax⟩ := l.queryCompressedPart_compress ratio key hw hfit
    have hsmall : r < 128 ↔ (r : ℕ) < 128 := Iff.rfl
    rw [← stripeMax_lt_iff, ← hmax, ← hsmall, ← ofChar_eq_iff]
    constructor
    · rintro ⟨dst',v,hdst',hquery',hv,-⟩
      obtain rfl : dst = dst' := Option.some.inj (hdst.symm.trans hdst')
      obtain rfl : ofChar r = v := Option.some.inj (hquery.symm.trans hquery')
      exact ⟨hfit,by rw [hv, ← hmax]⟩
    · rintro ⟨-,hchar⟩
      have hv : ofChar r = l.stripeMax (getCompressWidth h ratio)
          ((h.pos key : ℕ) % getCompressWidth h ratio) := by
        rw [hchar, ← hmax]
      refine ⟨dst,ofChar r,hdst,hquery,hv,?_,?_⟩
      · rw [hv]
        exact l.query_le_stripeMax _ key
      · rintro rfl
        rw [hv, getCompressWidth, Nat.div_one, stripeMax_size]
  · refine iff_of_false ?_ fun hcond => absurd hcond.1 (Nat.not_le.mpr hfit)
    rintro ⟨dst,v,hdst,-⟩
    rw [l.compress_eq_none hw hfit] at hdst
    cases hdst

/-- Five counters in stripes of three and of two, the shorter one read. -/
theorem compressedFaithful_iff_five_counters :
    ∃ l : LightPart ⟨5,by decide,by decide,fun _ => 1⟩, l.query (Key.memset 7) = 90 ∧
      l.CompressedFaithful 2 (Key.memset 7) := by
  refine ⟨(clear _).swapInsert (Key.memset 7) 90,by decide +kernel,
    (compressedFaithful_iff _ 2 (Key.memset 7) (by decide) (by decide)).mpr ⟨by decide,?_⟩⟩
  decide +kernel

/-- A flow of 200 packets comes back as -56. -/
theorem compressed_fails_one_counter :
    ∃ (h : Hashing) (l : LightPart h), h.size = 1 ∧
      l = (clear h).swapInsert (Key.memset 7) 200 ∧ l.query (Key.memset 7) = 200 ∧
      (∃ dst, l.compress 1 = some dst ∧
        queryCompressedPart h (Key.memset 7) dst (getCompressWidth h 1) = some (-56)) ∧
      ¬ l.CompressedFaithful 1 (Key.memset 7) := by
  refine ⟨⟨1,by decide,by decide,fun _ => 0⟩,_,rfl,rfl,by decide +kernel,?_⟩
  obtain ⟨dst,r,hdst,hquery,hmax⟩ := queryCompressedPart_compress
    ((clear ⟨1,by decide,by decide,fun _ => 0⟩).swapInsert (Key.memset 7) 200) 1 (Key.memset 7)
    (by decide) (by decide)
  have hr : r = 200 := Fin.ext (hmax.trans (by decide +kernel))
  rw [hr, show ofChar 200 = -56 by decide] at hquery
  refine ⟨⟨dst,hdst,hquery⟩,?_⟩
  rintro ⟨dst',v,hdst',hquery',-,hle,-⟩
  obtain rfl := Option.some.inj (hdst.symm.trans hdst')
  obtain rfl := Option.some.inj (hquery.symm.trans hquery')
  exact absurd hle (by decide +kernel)

end LightPart

namespace ElasticSketch

def queryCompressedPart (s : ElasticSketch hh lh) (key : Key) (compressPart : List (Fin 256))
    (compressCounterNum : ℕ) : Option ℤ :=
  let heavyResult := s.heavyPart.query key
  if heavyResult = 0 ∨ highestBitIs1 heavyResult then
    (LightPart.queryCompressedPart lh key compressPart compressCounterNum).map fun lightResult =>
      toInt32 (toInt32 (getCounterVal heavyResult).toNat + lightResult)
  else some (toInt32 heavyResult.toNat)

theorem queryCompressedPart_eq (s : ElasticSketch hh lh) {key : Key} {part : List (Fin 256)}
    {n : ℕ} {v : ℤ} (hquery : LightPart.queryCompressedPart lh key part n = some v) (hv : 0 ≤ v)
    (hroom : count ((s.bucket key).query key) + v < 2^31) :
    s.queryCompressedPart key part n = some (count ((s.bucket key).query key) +
      if (s.bucket key).query key = 0 ∨ highestBitIs1 ((s.bucket key).query key) then v else 0) := by
  rw [← addLight_of_small _ hv hroom, queryCompressedPart, hquery, Option.map_some, ← apply_ite some]
  rfl

/-- A flow read off the heavy part and the compressed light part is not underestimated. -/
theorem query_le_queryCompressedPart (s : ElasticSketch hh lh) {ratio : ℕ} (key : Key)
    (h1 : 1 ≤ ratio) (hr : ratio ≤ lh.size)
    (hfit : lh.size + LightPart.getCompressWidth lh ratio ≤ 2^31)
    (hsmall : s.lightPart.stripeMax (LightPart.getCompressWidth lh ratio)
      ((lh.pos key : ℕ) % LightPart.getCompressWidth lh ratio) < 128)
    (hroom : count ((s.bucket key).query key) + 127 < 2^31) :
    ∃ dst v, s.lightPart.compress ratio = some dst ∧
      s.queryCompressedPart key dst (LightPart.getCompressWidth lh ratio) = some v ∧
      s.query key ≤ v := by
  obtain ⟨dst,r,hdst,hquery,hmax⟩ := s.lightPart.queryCompressedPart_compress ratio key
    (LightPart.getCompressWidth_pos h1 hr) hfit
  have hr128 : r < 128 := by omega
  rw [(ofChar_eq_iff r).mpr hr128] at hquery
  have hlight : s.light key ≤ (r : ℕ) := by
    rw [hmax]
    exact Int.ofNat_le.mp (s.lightPart.query_le_stripeMax _ key)
  refine ⟨dst,_,hdst,s.queryCompressedPart_eq hquery (by omega) (by omega),?_⟩
  rw [s.query_of_small key (by omega)]
  split_ifs <;> omega

end ElasticSketch
end SketchMonitor
