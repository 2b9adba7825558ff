import SketchMonitor.Sliding

/-!
# The cuckoo table

`insert` looks for an empty slot for its key and else tries to relocate the keys in its
way, one after the other and to a limited depth. The recursive call gets a pointer to
the key of the slot and a copy of the value. The slots are written while the recursion
unwinds, and each pointer is read when its slot is written. `search` is the part of the
code before the writes and `unwind` the writes; `insert_eq` puts them together.
-/

namespace SketchMonitor

/-- The template parameters, with `w = capacity / d`, and the two hash functions. -/
structure CuckooHashing where
  keylen : ℕ
  w : ℕ
  d : ℕ
  w_pos : 0 < w
  hashs : Fin 2 → (Fin keylen → UInt8) → UInt32

namespace CuckooHashing

variable (c : CuckooHashing)

abbrev Key := Fin c.keylen → UInt8

/-- `&buckets[hv][i]`. -/
abbrev Slot := Fin c.w × Fin c.d

structure KVPair where
  key : c.Key
  val : UInt32

abbrev Table := c.Slot → c.KVPair

variable {c}

namespace KVPair

def IsEmpty (p : c.KVPair) : Prop := ∀ i, p.key i = 0

/-- `memcmp` over all bytes of the key. -/
def IsKeyMatch (p : c.KVPair) (key : c.Key) : Prop := p.key = key

instance : DecidablePred (@IsEmpty c) := fun p => inferInstanceAs (Decidable (∀ i, p.key i = 0))

instance (key : c.Key) : DecidablePred fun p : c.KVPair => p.IsKeyMatch key :=
  fun p => inferInstanceAs (Decidable (p.key = key))

end KVPair

/-- `hashs[k]->run(key, keylen) % w`. -/
def hv (k : Fin 2) (key : c.Key) : Fin c.w := ⟨(c.hashs k key).toNat % c.w,Nat.mod_lt _ c.w_pos⟩

/-- The slots of the two loops over `k` and `i`, each with its `k`; `from_k` is passed over. -/
def probes (key : c.Key) (fromK : Option (Fin 2)) : List (Fin 2 × c.Slot) :=
  ((List.finRange 2).filter fun k => fromK ≠ some k).flatMap fun k =>
    (List.finRange c.d).map fun i => (k,(hv k key,i))

/-- The argument `key`: the caller's own bytes or the key of a slot. -/
inductive Ptr (c : CuckooHashing)
  | caller (key : c.Key)
  | slot (s : c.Slot)

def Ptr.read (t : c.Table) : Ptr c → c.Key
  | caller key => key
  | slot s => (t s).key

/-- `set(key, val)`. A slot copied onto itself keeps its key. -/
def set (t : c.Table) (s : c.Slot) (key : c.Key) (val : UInt32) : c.Table :=
  Function.update t s ⟨key,val⟩

/-- The loops that find a path: the first slot whose key can be relocated is written. -/
def evict (relocate : Fin 2 → c.Slot → c.Table → Bool × c.Table)
    (write : c.Slot → c.Table → c.Table) : List (Fin 2 × c.Slot) → c.Table → Bool × c.Table
  | [], t => (false,t)
  | ks :: rest, t =>
    let r := relocate ks.1 ks.2 t
    if r.1 then (true,write ks.2 r.2) else evict relocate write rest r.2

/-- `insert(key, val, from_k, remained)`, with `none` for -1. -/
def insert : ℕ → Ptr c → UInt32 → Option (Fin 2) → c.Table → Bool × c.Table
  | 0, _, _, _, t => (false,t)
  | remained+1, key, val, fromK, t =>
    let slots := probes (key.read t) fromK
    match slots.find? fun ks => (t ks.2).IsEmpty with
    | some ks => (true,set t ks.2 (key.read t) val)
    | none =>
      evict (fun k s t => insert remained (.slot s) (t s).val (some k) t)
        (fun s t => set t s (key.read t) val) slots t

/-- The value that `query` stores to `val`. -/
def query (t : c.Table) (key : c.Key) : Option UInt32 :=
  ((probes key none).find? fun ks => (t ks.2).IsKeyMatch key).map fun ks => (t ks.2).val

/-- The path along which `insert` would relocate keys, from the slot of the new key to the
empty one. -/
def search : ℕ → c.Key → Option (Fin 2) → c.Table → Option (List c.Slot)
  | 0, _, _, _ => none
  | remained+1, key, fromK, t =>
    match (probes key fromK).find? fun ks => (t ks.2).IsEmpty with
    | some ks => some [ks.2]
    | none => (probes key fromK).findSome? fun ks =>
        (search remained (t ks.2).key (some ks.1) t).map (ks.2 :: ·)

/-- The writes along a path, the last slot first. The values are those before the call. -/
def unwind (t : c.Table) : Ptr c → UInt32 → List c.Slot → c.Table
  | _, _, [] => t
  | key, val, s :: path =>
    let u := unwind t (.slot s) (t s).val path
    set u s (key.read u) val

theorem evict_eq (t : c.Table) {relocate : Fin 2 → c.Slot → c.Table → Bool × c.Table}
    {find : Fin 2 → c.Slot → Option (List c.Slot)} (key : Ptr c) (val : UInt32)
    (h : ∀ k s, relocate k s t =
      (find k s).elim (false,t) fun path => (true,unwind t (.slot s) (t s).val path))
    (slots : List (Fin 2 × c.Slot)) :
    evict relocate (fun s t => set t s (key.read t) val) slots t =
      (slots.findSome? fun ks => (find ks.1 ks.2).map (ks.2 :: ·)).elim (false,t)
        fun path => (true,unwind t key val path) := by
  induction slots with
  | nil => rfl
  | cons ks slots ih =>
    rw [evict, h, List.findSome?_cons]
    cases hfind : find ks.1 ks.2 with
    | none => simpa using ih
    | some path => rfl

/-- An insertion writes along the path that the search finds in the table before it, and
nothing if there is none. -/
theorem insert_eq (remained : ℕ) (key : Ptr c) (val : UInt32) (fromK : Option (Fin 2))
    (t : c.Table) : insert remained key val fromK t =
      (search remained (key.read t) fromK t).elim (false,t)
        fun path => (true,unwind t key val path) := by
  induction remained generalizing key val fromK with
  | zero => rfl
  | succ remained ih =>
    simp only [insert, search]
    cases hempty : (probes (key.read t) fromK).find? fun ks => (t ks.2).IsEmpty with
    | some ks => rfl
    | none =>
      have hrelocate (k : Fin 2) (s : c.Slot) := ih (.slot s) (t s).val (some k)
      exact @evict_eq c t (fun k s u => insert remained (.slot s) (u s).val (some k) u) _ key val
        hrelocate (probes (key.read t) fromK)

end CuckooHashing
end SketchMonitor
