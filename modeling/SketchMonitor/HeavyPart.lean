import SketchMonitor.Param

/-!
# The heavy part

Buckets of seven keyed slots and a guard counter, with the search loop, the four
outcomes of an insertion and the lookup. `Bucket.Step` says once what an insertion
can do to a bucket; later modules argue by cases on it and never unfold the loop.
-/

namespace SketchMonitor

namespace Bucket

/-- A bucket after `memset(buckets, 0, ...)`. -/
def zero : Bucket := ⟨fun _ => Key.zeroStr,fun _ => 0⟩

def slot (b : Bucket) (i : Fin maxValidCounter) : UInt32 := b.val i.castSucc

def guard (b : Bucket) : UInt32 := b.val (Fin.last maxValidCounter)

def setVal (b : Bucket) (i : Fin maxValidCounter) (v : UInt32) : Bucket :=
  { b with val := Function.update b.val i.castSucc v }

def setKey (b : Bucket) (i : Fin maxValidCounter) (k : Key) : Bucket :=
  { b with key := Function.update b.key i k }

def setGuard (b : Bucket) (g : UInt32) : Bucket :=
  { b with val := Function.update b.val (Fin.last maxValidCounter) g }

@[simp] theorem zero_key (i : Fin maxValidCounter) : zero.key i = Key.zeroStr := rfl
@[simp] theorem zero_slot (i : Fin maxValidCounter) : zero.slot i = 0 := rfl
@[simp] theorem zero_guard : zero.guard = 0 := rfl

@[simp] theorem setVal_key (b : Bucket) (i : Fin maxValidCounter) (v : UInt32) :
    (b.setVal i v).key = b.key := rfl
@[simp] theorem setKey_key (b : Bucket) (i : Fin maxValidCounter) (k : Key) :
    (b.setKey i k).key = Function.update b.key i k := rfl
@[simp] theorem setGuard_key (b : Bucket) (g : UInt32) : (b.setGuard g).key = b.key := rfl

@[simp] theorem setVal_slot (b : Bucket) (i : Fin maxValidCounter) (v : UInt32) :
    (b.setVal i v).slot = Function.update b.slot i v := by
  funext j
  by_cases h : j = i <;> simp [setVal, slot, Function.update, h]
@[simp] theorem setKey_slot (b : Bucket) (i : Fin maxValidCounter) (k : Key) :
    (b.setKey i k).slot = b.slot := rfl
@[simp] theorem setGuard_slot (b : Bucket) (g : UInt32) : (b.setGuard g).slot = b.slot := by
  funext j
  simp [setGuard, slot, Function.update, Fin.castSucc_ne_last]

@[simp] theorem setVal_guard (b : Bucket) (i : Fin maxValidCounter) (v : UInt32) :
    (b.setVal i v).guard = b.guard := by
  simp [setVal, guard, Function.update, (Fin.castSucc_ne_last i).symm]
@[simp] theorem setKey_guard (b : Bucket) (i : Fin maxValidCounter) (k : Key) :
    (b.setKey i k).guard = b.guard := rfl
@[simp] theorem setGuard_guard (b : Bucket) (g : UInt32) : (b.setGuard g).guard = g := by
  simp [setGuard, guard]

/-- The slot's key and the given key compare equal. -/
def Matches (b : Bucket) (key : Key) (i : Fin maxValidCounter) : Prop := (b.key i).strncmp key = 0

/-- The slot's key compares equal to thirteen zero bytes. -/
def ReadsEmpty (b : Bucket) (i : Fin maxValidCounter) : Prop := b.Matches Key.zeroStr i

instance (b : Bucket) (key : Key) : DecidablePred (b.Matches key) :=
  fun i => inferInstanceAs (Decidable ((b.key i).strncmp key = 0))

instance (b : Bucket) : DecidablePred b.ReadsEmpty :=
  fun i => inferInstanceAs (Decidable (b.Matches Key.zeroStr i))

/-- The locals of the search loop; `none` is the sentinel -1. -/
structure Search where
  matched : Option (Fin maxValidCounter)
  empty : Option (Fin maxValidCounter)
  minCounter : Fin maxValidCounter
  minCounterVal : UInt32

/-- The loop over the remaining slots, left at the first match. -/
def searchLoop (b : Bucket) (key : Key) : List (Fin maxValidCounter) → Search → Search
  | [], s => s
  | i :: is, s =>
    if b.Matches key i then { s with matched := some i }
    else
      let s := if b.ReadsEmpty i ∧ s.empty = none then { s with empty := some i } else s
      let s := if s.minCounterVal > getCounterVal (b.slot i) then
        { s with minCounter := i, minCounterVal := getCounterVal (b.slot i) } else s
      searchLoop b key is s

def search (b : Bucket) (key : Key) : Search :=
  searchLoop b key (List.finRange maxValidCounter) ⟨none,none,0,getCounterVal (b.slot 0)⟩

end Bucket

/-- What `HeavyPart::insert` returns; an eviction also sets `swap_key` and `swap_val`. -/
inductive InsertResult
  | kept
  | swapped (swapKey : Key) (swapVal : UInt32)
  | rejected
  deriving DecidableEq

/-- The returned `int`. -/
def InsertResult.code : InsertResult → ℕ
  | .kept => 0
  | .swapped _ _ => 1
  | .rejected => 2

namespace Bucket

/-- The body of `HeavyPart::insert` on `buckets[pos]`. -/
def insert (b : Bucket) (key : Key) (f : UInt32) : Bucket × InsertResult :=
  let s := b.search key
  match s.matched with
  | some i => (b.setVal i (b.slot i + f),.kept)
  | none =>
    match s.empty with
    | some i => ((b.setKey i key.strncpy).setVal i f,.kept)
    | none =>
      let guardVal := updateGuardVal b.guard
      if judgeIfSwap (getCounterVal s.minCounterVal) guardVal then
        let m := s.minCounter
        (((b.setGuard 0).setKey m key.strncpy).setVal m 0x80000001,
          .swapped (b.key m).strncpy (b.slot m))
      else (b.setGuard guardVal,.rejected)

/-- No slot matches the key and none reads as empty. -/
def FullFor (b : Bucket) (key : Key) : Prop :=
  (∀ j, ¬ b.Matches key j) ∧ ∀ j, ¬ b.ReadsEmpty j

instance (b : Bucket) (key : Key) : Decidable (b.FullFor key) :=
  inferInstanceAs (Decidable ((∀ j, ¬ b.Matches key j) ∧ ∀ j, ¬ b.ReadsEmpty j))

/-- `m` is a slot with the least count of the bucket. -/
def IsMin (b : Bucket) (m : Fin maxValidCounter) : Prop := ∀ j, count (b.slot m) ≤ count (b.slot j)

/-- The four outcomes of an insertion, each with what the search has found. -/
inductive Step (b : Bucket) (key : Key) (f : UInt32) : Bucket → InsertResult → Prop
  | matched (i : Fin maxValidCounter) (hmatch : b.Matches key i)
      (hfirst : ∀ j < i, ¬ b.Matches key j) : Step b key f (b.setVal i (b.slot i + f)) .kept
  | filled (i : Fin maxValidCounter) (hnew : ∀ j, ¬ b.Matches key j) (hempty : b.ReadsEmpty i)
      (hfirst : ∀ j < i, ¬ b.ReadsEmpty j) :
      Step b key f ((b.setKey i key.strncpy).setVal i f) .kept
  | rejected (m : Fin maxValidCounter) (hnew : ∀ j, ¬ b.Matches key j)
      (hfull : ∀ j, ¬ b.ReadsEmpty j) (hmin : b.IsMin m)
      (hstay : judgeIfSwap (getCounterVal (b.slot m)) (b.guard + 1) = false) :
      Step b key f (b.setGuard (b.guard + 1)) .rejected
  | evicted (m : Fin maxValidCounter) (hnew : ∀ j, ¬ b.Matches key j)
      (hfull : ∀ j, ¬ b.ReadsEmpty j) (hmin : b.IsMin m)
      (hswap : judgeIfSwap (getCounterVal (b.slot m)) (b.guard + 1) = true) :
      Step b key f (((b.setGuard 0).setKey m key.strncpy).setVal m 0x80000001)
        (.swapped (b.key m).strncpy (b.slot m))

theorem find?_finRange {n : ℕ} {p : Fin n → Bool} {i : Fin n}
    (h : (List.finRange n).find? p = some i) : p i = true ∧ ∀ j < i, p j = false := by
  rw [List.find?_eq_some_iff_getElem] at h
  obtain ⟨hp,m,hm,hmi,hbefore⟩ := h
  refine ⟨hp,fun j hj => ?_⟩
  have hval : m = i.val := by simpa using congrArg Fin.val hmi
  have hjm : j.val < m := by simpa [hval] using hj
  simpa using hbefore j.val hjm

/-- The first slot with a property. -/
def first (p : Fin maxValidCounter → Prop) [DecidablePred p] : Option (Fin maxValidCounter) :=
  (List.finRange maxValidCounter).find? fun i => decide (p i)

theorem first_eq_some_iff {p : Fin maxValidCounter → Prop} [DecidablePred p]
    {i : Fin maxValidCounter} : first p = some i ↔ p i ∧ ∀ j < i, ¬ p j := by
  constructor
  · intro h
    simpa using find?_finRange h
  · rintro ⟨hi,hbefore⟩
    cases h : first p with
    | none => exact absurd hi (by simpa using List.find?_eq_none.mp h i (List.mem_finRange i))
    | some k =>
      obtain ⟨hk,hbefore'⟩ := find?_finRange h
      simp only [decide_eq_true_eq, decide_eq_false_iff_not] at hk hbefore'
      rcases lt_trichotomy k i with hlt | heq | hgt
      · exact absurd hk (hbefore k hlt)
      · rw [heq]
      · exact absurd hi (hbefore' i hgt)

theorem first_eq_none_iff {p : Fin maxValidCounter → Prop} [DecidablePred p] :
    first p = none ↔ ∀ j, ¬ p j := by
  simp [first, List.find?_eq_none]

theorem first_congr {p q : Fin maxValidCounter → Prop} [DecidablePred p] [DecidablePred q]
    (h : ∀ i, p i ↔ q i) : first p = first q := by
  simp only [first, h]

theorem searchLoop_matched (b : Bucket) (key : Key) (is : List (Fin maxValidCounter)) (s : Search)
    (hs : s.matched = none) :
    (searchLoop b key is s).matched = is.find? fun i => decide (b.Matches key i) := by
  induction is generalizing s with
  | nil => simpa [searchLoop] using hs
  | cons i is ih =>
    by_cases hi : b.Matches key i
    · simp [searchLoop, hi]
    · simp only [searchLoop, hi, if_false, List.find?_cons, decide_false]
      apply ih
      split_ifs <;> exact hs

theorem searchLoop_empty (b : Bucket) (key : Key) (is : List (Fin maxValidCounter)) (s : Search)
    (hnew : ∀ i ∈ is, ¬ b.Matches key i) :
    (searchLoop b key is s).empty = s.empty.or (is.find? fun i => decide (b.ReadsEmpty i)) := by
  induction is generalizing s with
  | nil => simp [searchLoop]
  | cons i is ih =>
    have hi : ¬ b.Matches key i := hnew i (by simp)
    simp only [searchLoop, hi, if_false]
    rw [ih _ fun j hj => hnew j (by simp [hj])]
    by_cases he : b.ReadsEmpty i
    · cases hs : s.empty <;> simp [he, hs] <;> split_ifs <;> simp [hs]
    · simp only [he, false_and, if_false, List.find?_cons, decide_false]
      split_ifs <;> rfl

/-- The loop passes a slot with another key: the slot becomes the minimum if its count
is below the one kept so far. -/
theorem searchLoop_cons_of_new (b : Bucket) (key : Key) {i : Fin maxValidCounter}
    (is : List (Fin maxValidCounter)) (s : Search) (hi : ¬ b.Matches key i) :
    ∃ t, searchLoop b key (i :: is) s = searchLoop b key is t ∧
      (t.minCounter = i ∧ t.minCounterVal = getCounterVal (b.slot i) ∧
          count (b.slot i) < s.minCounterVal.toNat ∨
        t.minCounter = s.minCounter ∧ t.minCounterVal = s.minCounterVal ∧
          s.minCounterVal.toNat ≤ count (b.slot i)) := by
  simp only [searchLoop, hi, if_false]
  set s₁ : Search := if b.ReadsEmpty i ∧ s.empty = none then { s with empty := some i } else s
  have h₁ : s₁.minCounterVal = s.minCounterVal ∧ s₁.minCounter = s.minCounter := by
    unfold s₁
    split_ifs <;> exact ⟨rfl,rfl⟩
  refine ⟨_,rfl,?_⟩
  rw [h₁.1]
  split_ifs with hlt
  · exact Or.inl ⟨rfl,rfl,UInt32.lt_iff_toNat_lt.mp hlt⟩
  · exact Or.inr ⟨h₁.2,h₁.1,not_lt.mp fun h => hlt (UInt32.lt_iff_toNat_lt.mpr h)⟩

/-- The running minimum is the count of its slot and bounds every count seen. -/
theorem searchLoop_min (b : Bucket) (key : Key) (is : List (Fin maxValidCounter)) (s : Search)
    (hnew : ∀ i ∈ is, ¬ b.Matches key i) (hs : s.minCounterVal = getCounterVal (b.slot s.minCounter)) :
    (searchLoop b key is s).minCounterVal =
        getCounterVal (b.slot (searchLoop b key is s).minCounter) ∧
      (searchLoop b key is s).minCounterVal.toNat ≤ s.minCounterVal.toNat ∧
      ∀ i ∈ is, (searchLoop b key is s).minCounterVal.toNat ≤ count (b.slot i) := by
  induction is generalizing s with
  | nil => simpa [searchLoop] using hs
  | cons i is ih =>
    obtain ⟨t,hloop,hmin⟩ := searchLoop_cons_of_new b key is s (hnew i (by simp))
    rw [hloop]
    have ht : t.minCounterVal = getCounterVal (b.slot t.minCounter) ∧
        t.minCounterVal.toNat ≤ s.minCounterVal.toNat ∧
        t.minCounterVal.toNat ≤ count (b.slot i) := by
      rcases hmin with ⟨hmin,hval,hlt⟩ | ⟨hmin,hval,hle⟩
      · rw [hmin, hval]
        exact ⟨rfl,hlt.le,le_rfl⟩
      · rw [hmin, hval]
        exact ⟨hs,le_rfl,hle⟩
    obtain ⟨hval,hle,hall⟩ := ih t (fun j hj => hnew j (by simp [hj])) ht.1
    refine ⟨hval,hle.trans ht.2.1,?_⟩
    intro j hj
    rcases List.mem_cons.mp hj with rfl | hj
    · exact hle.trans ht.2.2
    · exact hall j hj

/-- The minimum the loop keeps is its first: earlier slots have larger counts. -/
theorem searchLoop_minCounter (b : Bucket) (key : Key) (is : List (Fin maxValidCounter)) (s : Search)
    (hnew : ∀ i ∈ is, ¬ b.Matches key i) (hs : s.minCounterVal = getCounterVal (b.slot s.minCounter))
    (hsorted : is.Pairwise (· < ·)) (hle : ∀ i ∈ is, s.minCounter ≤ i) :
    ((searchLoop b key is s).minCounter = s.minCounter ∨
        count (b.slot (searchLoop b key is s).minCounter) < s.minCounterVal.toNat) ∧
      ∀ i ∈ is, i < (searchLoop b key is s).minCounter →
        count (b.slot (searchLoop b key is s).minCounter) < count (b.slot i) := by
  induction is generalizing s with
  | nil => simp [searchLoop]
  | cons i is ih =>
    obtain ⟨hbefore,hsorted⟩ := List.pairwise_cons.mp hsorted
    obtain ⟨t,hloop,hmin⟩ := searchLoop_cons_of_new b key is s (hnew i (by simp))
    rw [hloop]
    have hrest : ∀ j ∈ is, ¬ b.Matches key j := fun j hj => hnew j (by simp [hj])
    rcases hmin with ⟨hmin,hval,hlt⟩ | ⟨hmin,hval,hcount⟩
    · -- the slot is the new minimum
      obtain ⟨hkept,hall⟩ := ih t hrest (by rw [hmin, hval]) hsorted
        fun j hj => hmin ▸ (hbefore j hj).le
      have hbelow : (searchLoop b key is t).minCounter = i ∨
          count (b.slot (searchLoop b key is t).minCounter) < count (b.slot i) := by
        rwa [hmin, hval] at hkept
      refine ⟨Or.inr ?_,fun j hj hjm => ?_⟩
      · rcases hbelow with hkept | hkept
        · rwa [hkept]
        · exact hkept.trans hlt
      · rcases List.mem_cons.mp hj with rfl | hj
        · exact hbelow.resolve_left fun hkept => absurd hjm (by simp [hkept])
        · exact hall j hj hjm
    · -- the minimum stays
      obtain ⟨hkept,hall⟩ := ih t hrest (by rw [hmin, hval, hs]) hsorted
        fun j hj => hmin ▸ hle j (by simp [hj])
      rw [hmin, hval] at hkept
      refine ⟨hkept,fun j hj hjm => ?_⟩
      rcases List.mem_cons.mp hj with rfl | hj
      · rcases hkept with hkept | hkept
        · exact absurd (hkept ▸ hjm) (not_lt.mpr (hle j (by simp)))
        · exact hkept.trans_le hcount
      · exact hall j hj hjm

theorem search_matched (b : Bucket) (key : Key) : (b.search key).matched = first (b.Matches key) :=
  searchLoop_matched b key _ _ rfl

theorem search_empty {b : Bucket} {key : Key} (hnew : ∀ j, ¬ b.Matches key j) :
    (b.search key).empty = first b.ReadsEmpty := by
  rw [search, searchLoop_empty b key _ _ fun i _ => hnew i, Option.none_or]
  rfl

theorem search_min {b : Bucket} {key : Key} (hnew : ∀ j, ¬ b.Matches key j) :
    (b.search key).minCounterVal = getCounterVal (b.slot (b.search key).minCounter) ∧
      b.IsMin (b.search key).minCounter := by
  obtain ⟨hval,-,hall⟩ := searchLoop_min b key (List.finRange maxValidCounter)
    ⟨none,none,0,getCounterVal (b.slot 0)⟩ (fun i _ => hnew i) rfl
  refine ⟨hval,fun j => ?_⟩
  have h := hall j (List.mem_finRange j)
  rwa [hval] at h

instance (b : Bucket) : DecidablePred b.IsMin :=
  fun m => inferInstanceAs (Decidable (∀ j, count (b.slot m) ≤ count (b.slot j)))

/-- The slot the loop has found is the first with the least count. -/
theorem search_first_min {b : Bucket} {key : Key} (hnew : ∀ j, ¬ b.Matches key j) :
    first b.IsMin = some (b.search key).minCounter := by
  obtain ⟨-,hfirst⟩ := searchLoop_minCounter b key (List.finRange maxValidCounter)
    ⟨none,none,0,getCounterVal (b.slot 0)⟩ (fun i _ => hnew i) rfl
    (List.pairwise_lt_finRange maxValidCounter) fun i _ => Fin.zero_le i
  refine first_eq_some_iff.mpr ⟨(search_min hnew).2,fun j hj hmin => ?_⟩
  exact absurd (hmin (b.search key).minCounter) (not_le.mpr (hfirst j (List.mem_finRange j) hj))

theorem insert_of_match {b : Bucket} {key : Key} {i : Fin maxValidCounter} (f : UInt32)
    (h : first (b.Matches key) = some i) : b.insert key f = (b.setVal i (b.slot i + f),.kept) := by
  simp only [insert, search_matched, h]

theorem insert_of_empty {b : Bucket} {key : Key} {i : Fin maxValidCounter} (f : UInt32)
    (hnew : first (b.Matches key) = none) (h : first b.ReadsEmpty = some i) :
    b.insert key f = ((b.setKey i key.strncpy).setVal i f,.kept) := by
  simp only [insert, search_matched, hnew, search_empty (first_eq_none_iff.mp hnew), h]

theorem insert_of_full {b : Bucket} {key : Key} {m : Fin maxValidCounter} (f : UInt32)
    (hnew : first (b.Matches key) = none) (hfull : first b.ReadsEmpty = none)
    (hmin : first b.IsMin = some m) :
    b.insert key f =
      if judgeIfSwap (getCounterVal (b.slot m)) (b.guard + 1) then
        (((b.setGuard 0).setKey m key.strncpy).setVal m 0x80000001,
          .swapped (b.key m).strncpy (b.slot m))
      else (b.setGuard (b.guard + 1),.rejected) := by
  have habsent := first_eq_none_iff.mp hnew
  have hm : (b.search key).minCounter = m :=
    Option.some.inj ((search_first_min habsent).symm.trans hmin)
  have hval := (search_min habsent).1
  rw [hm] at hval
  simp only [insert, search_matched, hnew, search_empty habsent, hfull, hm, hval,
    getCounterVal_getCounterVal, updateGuardVal]

/-- Every insertion takes one of the four outcomes. -/
theorem insert_step (b : Bucket) (key : Key) (f : UInt32) :
    Step b key f (b.insert key f).1 (b.insert key f).2 := by
  cases hm : first (b.Matches key) with
  | some i =>
    obtain ⟨hi,hfirst⟩ := first_eq_some_iff.mp hm
    simpa only [insert_of_match f hm] using Step.matched i hi hfirst
  | none =>
    have hnew := first_eq_none_iff.mp hm
    cases he : first b.ReadsEmpty with
    | some i =>
      obtain ⟨hi,hfirst⟩ := first_eq_some_iff.mp he
      simpa only [insert_of_empty f hm he] using Step.filled i hnew hi hfirst
    | none =>
      have hfull := first_eq_none_iff.mp he
      have hmin := search_first_min hnew
      rw [insert_of_full f hm he hmin]
      split_ifs with hj
      · exact .evicted _ hnew hfull (first_eq_some_iff.mp hmin).1 hj
      · exact .rejected _ hnew hfull (first_eq_some_iff.mp hmin).1 (by simpa using hj)

/-- The loop of `HeavyPart::query` on `buckets[pos]`: the counter of the first match. -/
def query (b : Bucket) (key : Key) : UInt32 :=
  match (List.finRange maxValidCounter).find? fun i => decide (b.Matches key i) with
  | some i => b.slot i
  | none => 0

theorem exists_first {p : Fin maxValidCounter → Prop} (h : ∃ i, p i) :
    ∃ i, p i ∧ ∀ j < i, ¬ p j := by
  classical
  exact ⟨Fin.find p h,Fin.find_spec h,fun j hj => Fin.find_min h hj⟩

theorem query_of_first {b : Bucket} {key : Key} {i : Fin maxValidCounter} (hi : b.Matches key i)
    (hfirst : ∀ j < i, ¬ b.Matches key j) : b.query key = b.slot i := by
  have h : (List.finRange maxValidCounter).find? (fun i => decide (b.Matches key i)) = some i :=
    first_eq_some_iff.mpr ⟨hi,hfirst⟩
  rw [query, h]

theorem query_of_absent {b : Bucket} {key : Key} (h : ∀ j, ¬ b.Matches key j) : b.query key = 0 := by
  unfold query
  rw [List.find?_eq_none.mpr (by simpa using h)]

theorem matches_iff (b : Bucket) (key : Key) (i : Fin maxValidCounter) :
    b.Matches key i ↔ (b.key i).strncpy = key.strncpy := Key.strncmp_eq_zero_iff _ _

theorem readsEmpty_iff (b : Bucket) (i : Fin maxValidCounter) :
    b.ReadsEmpty i ↔ (b.key i).strncpy = Key.zeroStr := by
  rw [ReadsEmpty, matches_iff, Key.strncpy_zeroStr]

/-- A whole key matches the slots that store it, if they hold what `strncpy` wrote. -/
theorem matches_iff_of_copied {b : Bucket} {key : Key} {i : Fin maxValidCounter}
    (hcopied : (b.key i).strncpy = b.key i) (hkey : key.Whole) : b.Matches key i ↔ b.key i = key := by
  rw [matches_iff, hcopied, (Key.strncpy_eq_self_iff key).mpr hkey]

theorem readsEmpty_iff_of_copied {b : Bucket} {i : Fin maxValidCounter}
    (hcopied : (b.key i).strncpy = b.key i) : b.ReadsEmpty i ↔ b.key i = Key.zeroStr := by
  rw [readsEmpty_iff, hcopied]

end Bucket

structure HeavyPart (h : Hashing) where
  buckets : Fin h.size → Bucket

namespace HeavyPart

variable {h : Hashing}

/-- The constructor and `clear()`. -/
def clear (h : Hashing) : HeavyPart h := ⟨fun _ => Bucket.zero⟩

def setBucket (hp : HeavyPart h) (pos : Fin h.size) (b : Bucket) : HeavyPart h :=
  ⟨Function.update hp.buckets pos b⟩

def insert (hp : HeavyPart h) (key : Key) (f : UInt32) : HeavyPart h × InsertResult :=
  let pos := h.pos key
  let r := (hp.buckets pos).insert key f
  (hp.setBucket pos r.1,r.2)

def query (hp : HeavyPart h) (key : Key) : UInt32 := (hp.buckets (h.pos key)).query key

@[simp] theorem clear_buckets (h : Hashing) (b : Fin h.size) : (clear h).buckets b = Bucket.zero := rfl

@[simp] theorem setBucket_self (hp : HeavyPart h) (pos : Fin h.size) (b : Bucket) :
    (hp.setBucket pos b).buckets pos = b := by simp [setBucket]

theorem setBucket_of_ne (hp : HeavyPart h) {pos c : Fin h.size} (b : Bucket) (hc : c ≠ pos) :
    (hp.setBucket pos b).buckets c = hp.buckets c := by simp [setBucket, hc]

/-- An insertion replaces the bucket of its key by the outcome of one step. -/
theorem insert_eq_setBucket (hp : HeavyPart h) (key : Key) (f : UInt32) :
    ∃ b r, (hp.buckets (h.pos key)).Step key f b r ∧
      hp.insert key f = (hp.setBucket (h.pos key) b,r) :=
  ⟨_,_,Bucket.insert_step _ _ _,rfl⟩

/-- The record of one inserted packet. -/
structure Event (h : Hashing) where
  pos : Fin h.size
  full : Bool
  result : InsertResult

def recordInsert (st : HeavyPart h × List (Event h)) (key : Key) : HeavyPart h × List (Event h) :=
  let r := st.1.insert key 1
  (r.1,st.2 ++ [⟨h.pos key,decide ((st.1.buckets (h.pos key)).FullFor key),r.2⟩])

/-- `insert(key, 1)` for each key in turn, from the cleared heavy part, with the
events in order. -/
def insertAll (h : Hashing) (keys : List Key) : HeavyPart h × List (Event h) :=
  keys.foldl recordInsert (clear h,[])

theorem insertAll_concat (h : Hashing) (keys : List Key) (key : Key) :
    insertAll h (keys ++ [key]) = recordInsert (insertAll h keys) key := by
  simp [insertAll, List.foldl_append]

/-- What the steps of a bucket keep, and the packets of other buckets leave alone, holds of
the bucket after a run. -/
theorem insertAll_bucket_rule {pos : Fin h.size} (Ok : List Key → Prop)
    (Inv : List Key → List (Event h) → Bucket → Prop)
    (hpre : ∀ keys key, Ok (keys ++ [key]) → Ok keys) (h₀ : Inv [] [] Bucket.zero)
    (hother : ∀ keys events b key (e : Event h), e.pos ≠ pos → Inv keys events b →
      Inv (keys ++ [key]) (events ++ [e]) b)
    (hstep : ∀ keys events b key b' r, Ok (keys ++ [key]) → h.pos key = pos → Inv keys events b →
      b.Step key 1 b' r →
        Inv (keys ++ [key]) (events ++ [⟨pos,decide (b.FullFor key),r⟩]) b')
    (keys : List Key) (hok : Ok keys) :
    Inv keys (insertAll h keys).2 ((insertAll h keys).1.buckets pos) := by
  induction keys using List.reverseRecOn with
  | nil => exact h₀
  | append_singleton keys key ih =>
    have hinv := ih (hpre keys key hok)
    obtain ⟨b',r,hunit,hins⟩ := (insertAll h keys).1.insert_eq_setBucket key 1
    rw [insertAll_concat]
    simp only [recordInsert, hins]
    by_cases hpos : h.pos key = pos
    · subst hpos
      rw [setBucket_self]
      exact hstep _ _ _ _ _ _ hok rfl hinv hunit
    · rw [setBucket_of_ne _ _ (Ne.symm hpos)]
      exact hother _ _ _ _ _ hpos hinv

end HeavyPart
end SketchMonitor
