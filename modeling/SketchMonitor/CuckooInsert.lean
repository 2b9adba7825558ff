import SketchMonitor.CuckooHashing

/-!
# Cuckoo insertion as a map update

An eviction path may come back to a slot. Its frames still hold a pointer to the key of
that slot and a copy of its value, and by the time they write, the key is another one but
the value is not. The keys themselves are only moved about, so an insertion is an atomic
update of the map if and only if each slot of the path gets the value that belongs to the
key moved there, and that key may lie there. A path that enters no slot twice is of this
kind.
-/

namespace SketchMonitor
namespace CuckooHashing

open Sliding

variable {c : CuckooHashing}

/-- The slot lies in one of the two buckets of the key. -/
def Probes (key : c.Key) (s : c.Slot) : Prop := ∃ k, hv k key = s.1

instance (key : c.Key) (s : c.Slot) : Decidable (Probes key s) :=
  inferInstanceAs (Decidable (∃ k, hv k key = s.1))

/-- Each stored key occurs once and lies in one of its two buckets. -/
structure WellPlaced (t : c.Table) : Prop where
  unique : ∀ s s', ¬ (t s).IsEmpty → (t s').key = (t s).key → s' = s
  placed : ∀ s, ¬ (t s).IsEmpty → Probes (t s).key s

/-- The key is stored in no slot. -/
def Absent (t : c.Table) (key : c.Key) : Prop := ∀ s, (t s).key ≠ key

/-- `u` is `t` with the key added. -/
structure Inserted (t u : c.Table) (key : c.Key) (val : UInt32) : Prop where
  found : query u key = some val
  kept : ∀ s, ¬ (t s).IsEmpty → ∃ s', u s' = t s ∧ Probes (t s).key s' ∧
    ∀ s'', (u s'').key = (t s).key → s'' = s'
  only : ∀ s, ¬ (u s).IsEmpty → (u s).key = key ∨ ∃ s', (t s').key = (u s).key

/-- The key is added, or `false` is returned and nothing changes. -/
def AtomicUpdate (t : c.Table) (key : c.Key) (val : UInt32) (r : Bool × c.Table) : Prop :=
  if r.1 then Inserted t r.2 key val else r.2 = t

/-- Along the path, the value a slot is given last belongs to the key that ends up in it, and
the slot is one of that key's. -/
def PathSafe (t : c.Table) (path : List c.Slot) : Prop :=
  ∀ s ∈ path.tail, path.head? ≠ some s →
    (t (source path s)).val = (t (slide id path s)).val ∧ Probes (t (slide id path s)).key s

/-- The search does not come back to a slot. -/
def EntersOnce (t : c.Table) (key : c.Key) (remained : ℕ) : Prop :=
  ∀ path ∈ search remained key none t, path.Nodup

instance (t : c.Table) (key : c.Key) (remained : ℕ) : Decidable (EntersOnce t key remained) :=
  inferInstanceAs (Decidable (∀ path ∈ search remained key none t, path.Nodup))

/-- What the search finds: full slots of the keys in the way, and an empty one at the end. -/
inductive Path (t : c.Table) : c.Key → List c.Slot → Prop
  | free {key : c.Key} {s : c.Slot} (hprobe : Probes key s) (hempty : (t s).IsEmpty) :
      Path t key [s]
  | evicting {key : c.Key} {s : c.Slot} {path : List c.Slot} (hprobe : Probes key s)
      (hfull : ¬ (t s).IsEmpty) (hrest : Path t (t s).key path) : Path t key (s :: path)

theorem probes_of_mem {key : c.Key} {fromK : Option (Fin 2)} {ks : Fin 2 × c.Slot}
    (h : ks ∈ probes key fromK) : Probes key ks.2 := by
  obtain ⟨k,-,hk⟩ := List.mem_flatMap.mp h
  obtain ⟨i,-,rfl⟩ := List.mem_map.mp hk
  exact ⟨k,rfl⟩

theorem exists_mem_probes {key : c.Key} {s : c.Slot} (h : Probes key s) :
    ∃ k, (k,s) ∈ probes key none := by
  obtain ⟨k,hk⟩ := h
  refine ⟨k,List.mem_flatMap.mpr ⟨k,by simp,List.mem_map.mpr ⟨s.2,List.mem_finRange _,?_⟩⟩⟩
  rw [hk]

/-- What `operator[]` has made sure of when it inserts. -/
theorem absent_of_query_eq_none {t : c.Table} {key : c.Key} (hwell : WellPlaced t)
    (hkey : ¬ ∀ i, key i = 0) (h : query t key = none) : Absent t key := by
  intro s hs
  have hfull : ¬ (t s).IsEmpty := by rwa [KVPair.IsEmpty, hs]
  have hprobes : Probes key s := hs ▸ hwell.placed s hfull
  obtain ⟨k,hk⟩ := exists_mem_probes hprobes
  rw [query, Option.map_eq_none_iff] at h
  have hmiss := List.find?_eq_none.mp h (k,s) hk
  exact hmiss (decide_eq_true hs)

theorem search_path {remained : ℕ} {key : c.Key} {fromK : Option (Fin 2)} {t : c.Table}
    {path : List c.Slot} (h : search remained key fromK t = some path) : Path t key path := by
  induction remained generalizing key fromK path with
  | zero => cases h
  | succ remained ih =>
    simp only [search] at h
    cases hfree : (probes key fromK).find? fun ks => (t ks.2).IsEmpty with
    | some ks =>
      rw [hfree] at h
      obtain rfl := Option.some.inj h
      exact .free (probes_of_mem (List.mem_of_find?_eq_some hfree))
        (by simpa using List.find?_some hfree)
    | none =>
      rw [hfree] at h
      obtain ⟨ks,hks,hmap⟩ := List.exists_of_findSome?_eq_some h
      obtain ⟨rest,hrest,rfl⟩ := Option.map_eq_some_iff.mp hmap
      have hfull := List.find?_eq_none.mp hfree ks hks
      exact .evicting (probes_of_mem hks) (by simpa using hfull) (ih hrest)

namespace Path

variable {t : c.Table} {key : c.Key} {path : List c.Slot}

theorem probes_first {s : c.Slot} {rest : List c.Slot} (h : Path t key (s :: rest)) :
    Probes key s := by
  cases h with
  | free hprobe hempty => exact hprobe
  | evicting hprobe hfull hrest => exact hprobe

theorem exists_cons (h : Path t key path) : ∃ s rest, path = s :: rest := by
  cases h with
  | free hprobe hempty => exact ⟨_,_,rfl⟩
  | evicting hprobe hfull hrest => exact ⟨_,_,rfl⟩

/-- Only the last slot is empty. -/
theorem isEmpty_iff (h : Path t key path) (hne : path ≠ []) {s : c.Slot} (hs : s ∈ path) :
    (t s).IsEmpty ↔ s = path.getLast hne := by
  induction h generalizing s with
  | free hprobe hempty =>
    obtain rfl := List.mem_singleton.mp hs
    exact iff_of_true hempty rfl
  | evicting hprobe hfull hrest ih =>
    obtain ⟨q,rest,rfl⟩ := hrest.exists_cons
    rw [List.getLast_cons (List.cons_ne_nil q rest)]
    rcases List.mem_cons.mp hs with rfl | hs
    · refine iff_of_false hfull fun heq => hfull ?_
      have hlast := (ih (List.cons_ne_nil q rest) (List.getLast_mem _)).mpr rfl
      rwa [← heq] at hlast
    · exact ih (List.cons_ne_nil q rest) hs

/-- A slot is written last from a slot whose key may lie in it. -/
theorem probes_source (h : Path t key path) {s : c.Slot} (hs : s ∈ path.tail) :
    Probes (t (source path s)).key s := by
  induction h with
  | free hprobe hempty => cases hs
  | evicting hprobe hfull hrest ih =>
    obtain ⟨q,rest,rfl⟩ := hrest.exists_cons
    rw [source, Function.update_apply]
    split_ifs with hsq
    · rw [hsq]
      exact hrest.probes_first
    · exact ih ((List.mem_cons.mp hs).resolve_left hsq)

end Path

/-- After the first slot of the path has been left, the keys have slid along the path, and
each slot has the value of the slot it was written last from. -/
theorem unwind_rest (t : c.Table) (p : c.Slot) (rest : List c.Slot) :
    unwind t (.slot p) (t p).val rest = fun x =>
      ⟨(t (slide id (p :: rest) x)).key,(t (source (p :: rest) x)).val⟩ := by
  induction rest generalizing p with
  | nil => rfl
  | cons q rest ih =>
    funext x
    rw [unwind, ih q, set, Ptr.read, slide, source]
    by_cases hx : x = q
    · subst hx
      simp only [Function.update_self]
    · simp only [Function.update_of_ne hx]

section Written

variable {t : c.Table} {p : c.Slot} {rest : List c.Slot} {key : c.Key} {val : UInt32}

theorem unwind_first : unwind t (.caller key) val (p :: rest) p = ⟨key,val⟩ := by
  rw [unwind, set, Ptr.read, Function.update_self]

theorem unwind_of_ne {x : c.Slot} (hx : x ≠ p) :
    unwind t (.caller key) val (p :: rest) x =
      ⟨(t (slide id (p :: rest) x)).key,(t (source (p :: rest) x)).val⟩ := by
  rw [unwind, set, Function.update_of_ne hx, unwind_rest]

theorem eq_first_of_key (habsent : Absent t key) {x : c.Slot}
    (h : (unwind t (.caller key) val (p :: rest) x).key = key) : x = p := by
  by_contra hx
  rw [unwind_of_ne hx] at h
  exact habsent _ h

/-- `query` finds the new key, whatever happened to the others. -/
theorem query_unwind (habsent : Absent t key) (hp : Probes key p) :
    query (unwind t (.caller key) val (p :: rest)) key = some val := by
  obtain ⟨k,hk⟩ := exists_mem_probes hp
  cases hfind : (probes key none).find? fun ks =>
      (unwind t (.caller key) val (p :: rest) ks.2).IsKeyMatch key with
  | none =>
    refine absurd ?_ (List.find?_eq_none.mp hfind (k,p) hk)
    rw [unwind_first]
    exact decide_eq_true rfl
  | some ks =>
    have hmatch : (unwind t (.caller key) val (p :: rest) ks.2).IsKeyMatch key := by
      simpa using List.find?_some hfind
    rw [query, hfind, Option.map_some, eq_first_of_key habsent hmatch, unwind_first]

/-- On a safe path, and off it, a slot has a key of its own and the value of that key. -/
theorem PathSafe.settled (hsafe : PathSafe t (p :: rest)) (hwell : WellPlaced t) {x : c.Slot}
    (hx : x ≠ p) (hfull : ¬ (t (slide id (p :: rest) x)).IsEmpty) :
    (t (source (p :: rest) x)).val = (t (slide id (p :: rest) x)).val ∧
      Probes (t (slide id (p :: rest) x)).key x := by
  by_cases hmem : x ∈ rest
  · exact hsafe x hmem fun heq => hx (Option.some.inj heq).symm
  · have hstay : slide id (p :: rest) x = x := slide_of_notMem hmem
    have hown : source (p :: rest) x = x := source_of_notMem hmem
    rw [hstay] at hfull
    rw [hstay, hown]
    exact ⟨rfl,hwell.placed x hfull⟩

theorem inserted_of_pathSafe (hwell : WellPlaced t) (habsent : Absent t key)
    (hpath : Path t key (p :: rest)) (hsafe : PathSafe t (p :: rest)) :
    Inserted t (unwind t (.caller key) val (p :: rest)) key val := by
  obtain ⟨σ,hlast,hσ⟩ := exists_perm_slide p rest
  have hpEmpty : (t (σ p)).IsEmpty := by
    rw [hlast, hpath.isEmpty_iff (List.cons_ne_nil p rest) (List.getLast_mem _)]
  refine ⟨query_unwind habsent hpath.probes_first,fun s hs => ?_,fun s _ => ?_⟩
  · obtain ⟨x,rfl⟩ := σ.surjective s
    have hx : x ≠ p := fun heq => hs (heq ▸ hpEmpty)
    have hslide := hσ x hx
    obtain ⟨hval,hprobes⟩ := hsafe.settled hwell hx (by rwa [hslide])
    rw [hslide] at hval hprobes
    refine ⟨x,?_,hprobes,fun x' hx' => ?_⟩
    · rw [unwind_of_ne hx, hval, hslide]
    · have hx'p : x' ≠ p := by
        rintro rfl
        rw [unwind_first] at hx'
        exact habsent _ hx'.symm
      rw [unwind_of_ne hx'p, hσ x' hx'p] at hx'
      exact σ.injective (hwell.unique _ _ hs hx')
  · by_cases hs : s = p
    · rw [hs, unwind_first]
      exact Or.inl rfl
    · rw [unwind_of_ne hs]
      exact Or.inr ⟨_,rfl⟩

theorem pathSafe_of_inserted (hpath : Path t key (p :: rest))
    (hinserted : Inserted t (unwind t (.caller key) val (p :: rest)) key val) :
    PathSafe t (p :: rest) := by
  obtain ⟨σ,hlast,hσ⟩ := exists_perm_slide p rest
  intro s hs hhead
  have hsp : s ≠ p := fun heq => hhead (congrArg some heq.symm)
  have hfull : ¬ (t (slide id (p :: rest) s)).IsEmpty := by
    rw [hpath.isEmpty_iff (List.cons_ne_nil p rest) (slide_id_mem (List.mem_cons_of_mem p hs)),
      hσ s hsp, ← hlast]
    exact fun heq => hsp (σ.injective heq)
  obtain ⟨s',hs',hprobes,hunique⟩ := hinserted.kept _ hfull
  obtain rfl : s = s' := hunique s (by rw [unwind_of_ne hsp])
  refine ⟨?_,hprobes⟩
  rw [← hs', unwind_of_ne hsp]

end Written

/-- A path that enters no slot twice is safe. -/
theorem pathSafe_of_nodup {t : c.Table} {key : c.Key} {path : List c.Slot} (h : Path t key path)
    (hnodup : path.Nodup) : PathSafe t path := by
  intro s hs _
  rw [slide_id_of_nodup hnodup]
  exact ⟨rfl,h.probes_source hs⟩

/-- An insertion is an atomic update if and only if the path found in the table before it is
safe. -/
theorem insert_atomic_iff (t : c.Table) (key : c.Key) (val : UInt32) (remained : ℕ)
    (hwell : WellPlaced t) (habsent : Absent t key) :
    AtomicUpdate t key val (insert remained (.caller key) val none t) ↔
      ∀ path ∈ search remained key none t, PathSafe t path := by
  rw [insert_eq, Ptr.read]
  cases hsearch : search remained key none t with
  | none => exact iff_of_true rfl fun path hpath => by cases hpath
  | some path =>
    have hpath := search_path hsearch
    obtain ⟨p,rest,rfl⟩ := hpath.exists_cons
    have hiff : Inserted t (unwind t (.caller key) val (p :: rest)) key val ↔
        PathSafe t (p :: rest) :=
      ⟨pathSafe_of_inserted hpath,inserted_of_pathSafe hwell habsent hpath⟩
    simpa [AtomicUpdate] using hiff

/-- If the path found in the table before it enters no slot twice, or there is none, an
insertion is an atomic update of the map. -/
theorem insert_atomic_of_entersOnce (t : c.Table) (key : c.Key) (val : UInt32) (remained : ℕ)
    (hwell : WellPlaced t) (habsent : Absent t key) (honce : EntersOnce t key remained) :
    AtomicUpdate t key val (insert remained (.caller key) val none t) := by
  refine (insert_atomic_iff t key val remained hwell habsent).mpr fun path hpath => ?_
  exact pathSafe_of_nodup (search_path hpath) (honce path hpath)

/-- Keys of one byte in three buckets of two slots. -/
def threeBuckets : CuckooHashing where
  keylen := 1
  w := 3
  d := 2
  w_pos := Nat.succ_pos 2
  hashs k key :=
    if key ⟨0,Nat.one_pos⟩ = 3 then (if k.val = 0 then 2 else 1)
    else if key ⟨0,Nat.one_pos⟩ = 4 then 0
    else if k.val = 0 then 0 else 1

/-- Keys 1 and 4 in the first bucket, 2 and 3 in the second, and the third is empty. -/
def twoFullBuckets : threeBuckets.Table := fun s =>
  match s.1.val, s.2.val with
  | 0, 0 => ⟨fun _ => 1,10⟩
  | 0, _ => ⟨fun _ => 4,40⟩
  | 1, 0 => ⟨fun _ => 2,20⟩
  | 1, _ => ⟨fun _ => 3,30⟩
  | _, _ => ⟨fun _ => 0,0⟩

def keyFive : threeBuckets.Key := fun _ => 5

theorem twoFullBuckets_wellPlaced : WellPlaced twoFullBuckets :=
  ⟨by decide +kernel,by decide +kernel⟩

theorem keyFive_absent : Absent twoFullBuckets keyFive := by
  unfold Absent
  decide +kernel

/-- With a depth of three the search finds a path that enters no slot twice. -/
theorem insert_atomic_depth_three :
    AtomicUpdate twoFullBuckets keyFive 50 (insert 3 (.caller keyFive) 50 none twoFullBuckets) :=
  insert_atomic_of_entersOnce twoFullBuckets keyFive 50 3 twoFullBuckets_wellPlaced keyFive_absent
    (by decide +kernel)

/-- With the depth of the code, the path goes from key 1 to key 2 and back to key 1, and key 2
ends up with the value of key 1. -/
theorem atomic_fails_revisited_slot : WellPlaced twoFullBuckets ∧ Absent twoFullBuckets keyFive ∧
    ¬ AtomicUpdate twoFullBuckets keyFive 50
      (insert 5 (.caller keyFive) 50 none twoFullBuckets) := by
  refine ⟨twoFullBuckets_wellPlaced,keyFive_absent,fun hatomic => ?_⟩
  have hreturn : (insert 5 (.caller keyFive) 50 none twoFullBuckets).1 = true := by
    decide +kernel
  rw [AtomicUpdate, if_pos hreturn] at hatomic
  obtain ⟨s,hs,-⟩ := hatomic.kept (⟨1,by decide⟩,⟨0,by decide⟩) (by decide +kernel)
  have hlost : ∀ s, ((insert 5 (.caller keyFive) 50 none twoFullBuckets).2 s).val ≠ 20 := by
    decide +kernel
  exact hlost s (by rw [hs]; rfl)

end CuckooHashing
end SketchMonitor
