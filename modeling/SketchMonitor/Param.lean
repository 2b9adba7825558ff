import Mathlib.Data.Nat.Bitwise
import SketchMonitor.CString

/-!
# Keys, counters and buckets

The data model shared by both parts of the sketch. A counter word packs a flag
into bit 31 and a count into the low 31 bits. An `int` is an integer of the
range of 32-bit two's complement, reached through `toInt32`.
-/

namespace SketchMonitor

open CString

abbrev counterPerBucket : ℕ := 8
abbrev maxValidCounter : ℕ := 7
abbrev keyLength13 : ℕ := 13

/-- The 13 bytes of a flow key: addresses, ports and protocol as stored in memory. -/
structure Key where
  bytes : List UInt8
  length_eq : bytes.length = keyLength13
  deriving DecidableEq

namespace Key

@[ext] theorem ext {k l : Key} (h : k.bytes = l.bytes) : k = l := by
  cases k; cases l; simpa using h

/-- `memset(str, c, KEY_LENGTH_13)`. -/
def memset (c : UInt8) : Key := ⟨List.replicate keyLength13 c,by simp⟩

def zeroStr : Key := memset 0

/-- The 13 bytes `strncpy` writes for this key. -/
def strncpy (k : Key) : Key := ⟨CString.strncpy keyLength13 k.bytes, by simp⟩

def strncmp (k l : Key) : ℤ := CString.strncmp keyLength13 k.bytes l.bytes

/-- `strncpy` keeps all 13 bytes of the key. -/
def Whole (k : Key) : Prop := ZeroPadded k.bytes

instance : DecidablePred Whole := fun k => inferInstanceAs (Decidable (ZeroPadded k.bytes))

def NoZeroByte (k : Key) : Prop := ∀ b ∈ k.bytes, b ≠ 0

@[simp] theorem strncpy_strncpy (k : Key) : k.strncpy.strncpy = k.strncpy :=
  Key.ext (CString.strncpy_strncpy keyLength13 k.bytes)

@[simp] theorem strncpy_zeroStr : zeroStr.strncpy = zeroStr := by decide

theorem strncmp_eq_zero_iff (k l : Key) : k.strncmp l = 0 ↔ k.strncpy = l.strncpy := by
  rw [strncmp, CString.strncmp_eq_zero_iff _ _ _ k.length_eq l.length_eq, Key.ext_iff]
  rfl

theorem strncpy_eq_self_iff (k : Key) : k.strncpy = k ↔ k.Whole := by
  rw [Key.ext_iff, Whole, ← CString.strncpy_eq_self_iff, k.length_eq]
  rfl

theorem NoZeroByte.whole {k : Key} (h : k.NoZeroByte) : k.Whole :=
  ZeroPadded.of_ne_zero k.bytes h

theorem noZeroByte_memset {c : UInt8} (hc : c ≠ 0) : (memset c).NoZeroByte := by
  intro b hb
  rwa [List.eq_of_mem_replicate hb]

theorem NoZeroByte.ne_zeroStr {k : Key} (h : k.NoZeroByte) : k ≠ zeroStr := by
  rintro rfl
  exact h 0 (by decide) rfl

end Key

/-- `uint32_t` or out-of-range arithmetic converted to `int`. -/
def toInt32 (x : ℤ) : ℤ := (x + 2^31) % 2^32 - 2^31

theorem toInt32_of_bounds {x : ℤ} (hlo : -2^31 ≤ x) (hhi : x < 2^31) : toInt32 x = x := by
  unfold toInt32
  omega

theorem toInt32_add_toInt32 (x y : ℤ) : toInt32 (toInt32 x + y) = toInt32 (x + y) := by
  unfold toInt32
  omega

@[simp] theorem toInt32_toInt32 (x : ℤ) : toInt32 (toInt32 x) = toInt32 x := by
  simpa using toInt32_add_toInt32 x 0

/-- An `int` result; arithmetic that leaves the range of `int` is undefined. -/
def checkInt (x : ℤ) : Option ℤ := if -2^31 ≤ x ∧ x < 2^31 then some x else none

theorem checkInt_of_bounds {x : ℤ} (hlo : -2^31 ≤ x) (hhi : x < 2^31) : checkInt x = some x :=
  if_pos ⟨hlo,hhi⟩

/-- A sum kept in an `int` is the sum, reduced once. -/
theorem foldl_toInt32_add {α : Type*} (xs : List α) (f : α → ℤ) :
    xs.foldl (fun tot x => toInt32 (tot + f x)) 0 = toInt32 (xs.map f).sum := by
  induction xs using List.reverseRecOn with
  | nil => rfl
  | append_singleton xs x ih =>
    rw [List.foldl_append, ih]
    simp [toInt32_add_toInt32]

theorem toNat_ofInt_natCast (n : ℕ) : (UInt32.ofInt n).toNat = n % 2^32 := by
  simp only [UInt32.ofInt, UInt32.toNat_ofNat']
  omega

/-- `GetCounterVal`: the low 31 bits. -/
def getCounterVal (v : UInt32) : UInt32 := v &&& 0x7FFFFFFF

/-- `HIGHEST_BIT_IS_1`: the flag. -/
def highestBitIs1 (v : UInt32) : Bool := v &&& 0x80000000 != 0

def updateGuardVal (guardVal : UInt32) : UInt32 := guardVal + 1

def judgeIfSwap (minVal guardVal : UInt32) : Bool := guardVal > minVal <<< 3

/-- The low-31-bit count of a counter word as a number. -/
def count (v : UInt32) : ℕ := (getCounterVal v).toNat

@[simp] theorem getCounterVal_getCounterVal (v : UInt32) :
    getCounterVal (getCounterVal v) = getCounterVal v := by
  simp [getCounterVal, UInt32.and_assoc]

theorem count_eq_mod (v : UInt32) : count v = v.toNat % 2^31 := by
  simp only [count, getCounterVal, UInt32.toNat_and]
  exact Nat.and_two_pow_sub_one_eq_mod v.toNat 31

theorem count_lt (v : UInt32) : count v < 2^31 := by
  rw [count_eq_mod]
  exact Nat.mod_lt _ (by norm_num)

theorem highestBitIs1_iff (v : UInt32) : highestBitIs1 v = true ↔ 2^31 ≤ v.toNat := by
  have hv := v.toNat_lt
  have hbit : (v &&& 0x80000000).toNat = (v.toNat.testBit 31).toNat * 2^31 := by
    rw [UInt32.toNat_and]
    exact Nat.and_two_pow v.toNat 31
  have htest : v.toNat.testBit 31 = true ↔ 2^31 ≤ v.toNat := by
    rw [Nat.testBit_eq_decide_div_mod_eq, decide_eq_true_iff]
    omega
  rw [← htest, highestBitIs1, bne_iff_ne, ne_eq, ← UInt32.toNat_inj, hbit]
  cases v.toNat.testBit 31 <;> simp

/-- Counting one more packet changes neither the flag nor wraps the count. -/
theorem count_add_one {v : UInt32} (h : count v + 1 < 2^31) : count (v + 1) = count v + 1 := by
  rw [count_eq_mod] at h ⊢
  rw [count_eq_mod, UInt32.toNat_add]
  simp only [UInt32.reduceToNat]
  omega

theorem highestBitIs1_add_one {v : UInt32} (h : count v + 1 < 2^31) :
    highestBitIs1 (v + 1) = highestBitIs1 v := by
  rw [count_eq_mod] at h
  have hv := v.toNat_lt
  rw [Bool.eq_iff_iff, highestBitIs1_iff, highestBitIs1_iff, UInt32.toNat_add]
  simp only [UInt32.reduceToNat]
  omega

theorem toNat_eq_count {v : UInt32} (h : highestBitIs1 v = false) : v.toNat = count v := by
  have hlt : v.toNat < 2^31 := by
    by_contra hge
    have := (highestBitIs1_iff v).mpr (by omega)
    simp [h] at this
  rw [count_eq_mod, Nat.mod_eq_of_lt hlt]

/-- A light estimate added to a flagged counter word goes into its count. -/
theorem count_merge (v : UInt32) (ex : ℕ) :
    count (if highestBitIs1 v ∧ (ex : ℤ) ≠ 0 then v + UInt32.ofInt ex else v) =
      if highestBitIs1 v then (count v + ex) % 2^31 else count v := by
  have hlt := count_lt v
  by_cases hflag : highestBitIs1 v = true
  · rcases Nat.eq_zero_or_pos ex with rfl | hpos
    · rw [if_neg (by simp), if_pos hflag, add_zero, Nat.mod_eq_of_lt hlt]
    · have hne : (ex : ℤ) ≠ 0 := by omega
      rw [if_pos ⟨hflag,hne⟩, if_pos hflag, count_eq_mod, count_eq_mod, UInt32.toNat_add,
        toNat_ofInt_natCast]
      omega
  · simp [hflag]

/-- The threshold comparison, also where the shift drops high bits. -/
theorem guard_le_of_not_judgeIfSwap {m g : UInt32} (h : judgeIfSwap m g = false) :
    g.toNat ≤ 8 * m.toNat := by
  have hle : g.toNat ≤ (m <<< 3).toNat := by
    simpa [judgeIfSwap, UInt32.lt_iff_toNat_lt] using h
  have hshift : (m <<< 3).toNat = m.toNat * 8 % 2^32 := by
    simp [Nat.shiftLeft_eq]
  have hmod := Nat.mod_le (m.toNat * 8) (2^32)
  omega

/-- `struct Bucket`: seven keyed slots and, in the last counter, the guard. -/
structure Bucket where
  key : Fin maxValidCounter → Key
  val : Fin counterPerBucket → UInt32

/-- A table of `size` entries and the hash function that places keys in it. The
size is a positive `int`, as `bucket_num` and `counter_num` are. -/
structure Hashing where
  size : ℕ
  size_pos : 0 < size
  size_lt : size < 2^31
  run : Key → UInt32

/-- `(uint32_t)bobhash->run(key, KEY_LENGTH_13) % (uint32_t)size`. -/
def Hashing.pos (h : Hashing) (key : Key) : Fin h.size :=
  ⟨(h.run key).toNat % h.size, Nat.mod_lt _ h.size_pos⟩

end SketchMonitor
