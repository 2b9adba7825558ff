import SketchMonitor.ElasticSketch

/-!
# Packet mass

The mass of a sketch is the sum of all slot counts and light counters, each taken
with a weight that depends on the light position. Inserting a packet adds at most
the weight of its own light position. With all weights one this bounds the total
mass by the number of packets, which in turn keeps every sum inside `int`.
-/

namespace SketchMonitor
namespace ElasticSketch

open FiniteSums

variable {hh lh : Hashing}

/-- Every stored key is what `strncpy` wrote. -/
def StoredCopied (s : ElasticSketch hh lh) : Prop :=
  ∀ b i, ((s.heavyPart.buckets b).key i).strncpy = (s.heavyPart.buckets b).key i

section Mass

variable (w : Fin lh.size → ℕ)

def slotMass (b : Bucket) (i : Fin maxValidCounter) : ℕ := w (lh.pos (b.key i)) * count (b.slot i)

def bucketMass (b : Bucket) : ℕ := ∑ i, slotMass w b i

def heavyMass (hp : HeavyPart hh) : ℕ := ∑ b, bucketMass w (hp.buckets b)

def lightMass (l : LightPart lh) : ℕ := ∑ p, w p * (l.counters p : ℕ)

def mass (s : ElasticSketch hh lh) : ℕ := heavyMass w s.heavyPart + lightMass w s.lightPart

theorem bucketMass_add {b b' : Bucket} (i : Fin maxValidCounter)
    (h : ∀ j, j ≠ i → b'.key j = b.key j ∧ b'.slot j = b.slot j) :
    bucketMass w b' + slotMass w b i = bucketMass w b + slotMass w b' i := by
  refine sum_add_eq_of_agree i fun j hj => ?_
  simp only [slotMass, h j hj]

theorem heavyMass_setBucket_add (hp : HeavyPart hh) (pos : Fin hh.size) (b : Bucket) :
    heavyMass w (hp.setBucket pos b) + bucketMass w (hp.buckets pos) =
      heavyMass w hp + bucketMass w b :=
  sum_update_add (bucketMass w) hp.buckets pos b

theorem lightMass_setCounter_add (l : LightPart lh) (pos : Fin lh.size) (v : Fin 256) :
    lightMass w (l.setCounter pos v) + w pos * l.counters pos = lightMass w l + w pos * v := by
  have h := sum_add_eq_of_agree (f := fun p => w p * ((l.setCounter pos v).counters p : ℕ))
    (g := fun p => w p * (l.counters p : ℕ)) pos fun j hj => by simp [hj]
  simpa [lightMass] using h

@[simp] theorem mass_clear : mass w (clear hh lh) = 0 := by
  simp [mass, heavyMass, bucketMass, slotMass, lightMass, count_eq_mod]

/-- Replacing the bucket of a key by one that differs in one slot. -/
theorem heavyMass_replace_add (s : ElasticSketch hh lh) (key : Key) (b' : Bucket)
    (i : Fin maxValidCounter)
    (h : ∀ j, j ≠ i → b'.key j = (s.bucket key).key j ∧ b'.slot j = (s.bucket key).slot j) :
    heavyMass w (s.heavyPart.setBucket (hh.pos key) b') + slotMass w (s.bucket key) i =
      heavyMass w s.heavyPart + slotMass w b' i := by
  have hbucket := bucketMass_add w i h
  have hheavy := heavyMass_setBucket_add w s.heavyPart (hh.pos key) b'
  change _ + bucketMass w (s.bucket key) = _ at hheavy
  omega

/-- One packet adds at most the weight of its light position, provided the weight
does not tell the key from its copy. -/
theorem mass_unitStep {s t : ElasticSketch hh lh} {key : Key} (hstep : UnitStep s key t)
    (hs : s.StoredCopied) (hkey : w (lh.pos key.strncpy) = w (lh.pos key))
    (hroom : ∀ i, count ((s.bucket key).slot i) + 1 < 2^31) :
    mass w t ≤ mass w s + w (lh.pos key) := by
  cases hstep with
  | matched i hmatch hfirst =>
    have hheavy := heavyMass_replace_add w s key
      ((s.bucket key).setVal i ((s.bucket key).slot i + 1)) i fun j hj => by simp [hj]
    have hsame : (s.bucket key).key i = key.strncpy :=
      (hs (hh.pos key) i).symm.trans ((Bucket.matches_iff _ _ _).mp hmatch)
    simp only [slotMass, Bucket.setVal_key, Bucket.setVal_slot, Function.update_self,
      count_add_one (hroom i), hsame, hkey, Nat.mul_succ] at hheavy
    simp only [mass]
    omega
  | filled i hnew hempty hfirst =>
    have hheavy := heavyMass_replace_add w s key
      (((s.bucket key).setKey i key.strncpy).setVal i 1) i fun j hj => by simp [hj]
    have hone : count 1 = 1 := rfl
    simp only [slotMass, Bucket.setVal_key, Bucket.setKey_key, Bucket.setVal_slot,
      Function.update_self, hkey, hone, Nat.mul_one] at hheavy
    simp only [mass]
    omega
  | rejected hnew hfull v hv =>
    have hheavy := heavyMass_replace_add w s key
      ((s.bucket key).setGuard ((s.bucket key).guard + 1)) 0 fun j hj => by simp
    have hlight := lightMass_setCounter_add w s.lightPart (lh.pos key) v
    have hle : w (lh.pos key) * v ≤ w (lh.pos key) * (s.light key + 1) :=
      Nat.mul_le_mul_left _ (by omega)
    rw [Nat.mul_succ] at hle
    simp only [slotMass, Bucket.setGuard_key, Bucket.setGuard_slot] at hheavy
    change _ + w (lh.pos key) * s.light key = _ at hlight
    simp only [mass]
    omega
  | evicted m hnew hfull v hv =>
    have hheavy := heavyMass_replace_add w s key
      ((((s.bucket key).setGuard 0).setKey m key.strncpy).setVal m 0x80000001) m
      fun j hj => by simp [hj]
    have hstored : ((s.bucket key).key m).strncpy = (s.bucket key).key m := hs _ _
    rw [hstored] at hv ⊢
    have hlight := lightMass_setCounter_add w s.lightPart (lh.pos ((s.bucket key).key m)) v
    have hvle : (v : ℕ) ≤ s.light ((s.bucket key).key m) + count ((s.bucket key).slot m) := by
      split_ifs at hv <;> omega
    have hle := Nat.mul_le_mul_left (w (lh.pos ((s.bucket key).key m))) hvle
    rw [Nat.mul_add] at hle
    have hone : count 0x80000001 = 1 := rfl
    simp only [slotMass, Bucket.setVal_key, Bucket.setKey_key, Bucket.setVal_slot,
      Function.update_self, hkey, hone, Nat.mul_one] at hheavy
    change _ + w (lh.pos ((s.bucket key).key m)) * s.light ((s.bucket key).key m) = _ at hlight
    simp only [mass]
    omega

theorem slotMass_add_le_mass (s : ElasticSketch hh lh) (b : Fin hh.size) (i : Fin maxValidCounter)
    (p : Fin lh.size) :
    slotMass w (s.heavyPart.buckets b) i + w p * s.lightPart.counters p ≤ mass w s := by
  have hslot : slotMass w (s.heavyPart.buckets b) i ≤ bucketMass w (s.heavyPart.buckets b) :=
    Finset.single_le_sum (f := fun i => slotMass w (s.heavyPart.buckets b) i)
      (fun j _ => Nat.zero_le _) (Finset.mem_univ i)
  have hbucket : bucketMass w (s.heavyPart.buckets b) ≤ heavyMass w s.heavyPart :=
    Finset.single_le_sum (f := fun b => bucketMass w (s.heavyPart.buckets b))
      (fun j _ => Nat.zero_le _) (Finset.mem_univ b)
  have hlight : w p * s.lightPart.counters p ≤ lightMass w s.lightPart :=
    Finset.single_le_sum (f := fun p => w p * (s.lightPart.counters p : ℕ))
      (fun j _ => Nat.zero_le _) (Finset.mem_univ p)
  unfold mass
  omega

end Mass

/-- All counts and light counters together. -/
def totalMass (s : ElasticSketch hh lh) : ℕ := mass (fun _ => 1) s

theorem count_add_counter_le (s : ElasticSketch hh lh) (b : Fin hh.size) (i : Fin maxValidCounter)
    (p : Fin lh.size) :
    count ((s.heavyPart.buckets b).slot i) + s.lightPart.counters p ≤ s.totalMass := by
  simpa [slotMass, totalMass] using slotMass_add_le_mass (fun _ => 1) s b i p

theorem StoredCopied.insert {s t : ElasticSketch hh lh} {key : Key} {f : ℤ} (hs : s.StoredCopied)
    (h : s.insert key f = some t) : t.StoredCopied := by
  obtain ⟨b',r,hstep,hins⟩ := s.heavyPart.insert_eq_setBucket key (UInt32.ofInt f)
  have hheavy : t.heavyPart = s.heavyPart.setBucket (hh.pos key) b' := by
    rw [heavyPart_of_insert h, hins]
  have hold : ∀ i, ((s.heavyPart.buckets (hh.pos key)).key i).strncpy = _ := hs (hh.pos key)
  have hnew (m i : Fin maxValidCounter) :
      (Function.update (s.heavyPart.buckets (hh.pos key)).key m key.strncpy i).strncpy =
        Function.update (s.heavyPart.buckets (hh.pos key)).key m key.strncpy i := by
    rw [Function.update_apply]
    split_ifs
    · exact Key.strncpy_strncpy key
    · exact hold i
  have hcopied : ∀ i, (b'.key i).strncpy = b'.key i := by
    cases hstep with
    | matched i hmatch hfirst => simpa using hold
    | filled i hnew' hempty hfirst => simpa using hnew i
    | rejected m hnew' hfull hmin hstay => simpa using hold
    | evicted m hnew' hfull hmin hswap => simpa using hnew m
  intro b i
  rw [hheavy]
  by_cases hb : b = hh.pos key
  · subst b
    rw [HeavyPart.setBucket_self]
    exact hcopied i
  · rw [HeavyPart.setBucket_of_ne _ _ hb]
    exact hs b i

/-- What holds of every run of fewer than 2^31 packets. -/
structure RunOk (keys : List Key) (s : ElasticSketch hh lh) : Prop where
  copied : s.StoredCopied
  mass_le : s.totalMass ≤ keys.length

theorem RunOk.clear (hh lh : Hashing) : RunOk [] (clear hh lh) where
  copied b i := by simp
  mass_le := by simp [totalMass]

/-- With one packet to come, no slot and light counter together fill an `int`. -/
theorem RunOk.room {keys : List Key} {s : ElasticSketch hh lh} (hs : RunOk keys s) {key : Key}
    (hlen : (keys ++ [key]).length < 2^31) (i : Fin maxValidCounter) (p : Fin lh.size) :
    count ((s.bucket key).slot i) + s.lightPart.counters p + 1 < 2^31 := by
  have hle : count ((s.bucket key).slot i) + s.lightPart.counters p ≤ s.totalMass :=
    s.count_add_counter_le (hh.pos key) i p
  have hmass := hs.mass_le
  rw [List.length_append, List.length_singleton] at hlen
  omega

theorem RunOk.slot_room {keys : List Key} {s : ElasticSketch hh lh} (hs : RunOk keys s) {key : Key}
    (hlen : (keys ++ [key]).length < 2^31) (i : Fin maxValidCounter) :
    count ((s.bucket key).slot i) + 1 < 2^31 := by
  have h := hs.room hlen i (lh.pos key)
  omega

/-- One more packet: the insertion succeeds with one of the four effects. -/
theorem RunOk.step {keys : List Key} {s : ElasticSketch hh lh} (hs : RunOk keys s) (key : Key)
    (hlen : (keys ++ [key]).length < 2^31) :
    ∃ t, s.insert key 1 = some t ∧ UnitStep s key t ∧ RunOk (keys ++ [key]) t := by
  have hmass := hs.mass_le
  obtain ⟨t,ht,hstep⟩ := s.insert_unitStep key fun i p => (Nat.lt_succ_self _).trans (hs.room hlen i p)
  have hgrow := mass_unitStep (fun _ => 1) hstep hs.copied rfl (hs.slot_room hlen)
  refine ⟨t,ht,hstep,hs.copied.insert ht,?_⟩
  rw [List.length_append, List.length_singleton]
  exact hgrow.trans (by simpa [totalMass] using hmass)

/-- Runs of packets carry any invariant their single steps keep. -/
theorem insertAll_rule (Ok : List Key → Prop) (Inv : List Key → ElasticSketch hh lh → Prop)
    (hpre : ∀ keys key, Ok (keys ++ [key]) → Ok keys) (h₀ : Inv [] (clear hh lh))
    (hstep : ∀ keys key s t, Ok (keys ++ [key]) → (keys ++ [key]).length < 2^31 → RunOk keys s →
      Inv keys s → UnitStep s key t → Inv (keys ++ [key]) t)
    (keys : List Key) (hlen : keys.length < 2^31) (hok : Ok keys) :
    ∃ s, insertAll hh lh keys = some s ∧ RunOk keys s ∧ Inv keys s := by
  refine Runs.run_total (fun keys => keys.length < 2^31 ∧ Ok keys)
    (fun keys s => RunOk keys s ∧ Inv keys s) ?_ ⟨RunOk.clear hh lh,h₀⟩ ?_ keys ⟨hlen,hok⟩
  · rintro keys key ⟨hlen,hok⟩
    rw [List.length_append, List.length_singleton] at hlen
    exact ⟨by omega,hpre keys key hok⟩
  · rintro keys key s ⟨hlen,hok⟩ ⟨hs,hinv⟩
    obtain ⟨t,ht,hunit,ht'⟩ := hs.step key hlen
    exact ⟨t,ht,ht',hstep keys key s t hok hlen hs hinv hunit⟩

/-- The mass over a weight is bounded by the weights of the packets. -/
theorem mass_le_sum (w : Fin lh.size → ℕ) (keys : List Key) (hlen : keys.length < 2^31)
    (hw : ∀ key ∈ keys, w (lh.pos key.strncpy) = w (lh.pos key)) :
    ∃ s, insertAll hh lh keys = some s ∧ RunOk keys s ∧
      mass w s ≤ (keys.map fun key => w (lh.pos key)).sum := by
  refine insertAll_rule (fun keys => ∀ key ∈ keys, w (lh.pos key.strncpy) = w (lh.pos key))
    (fun keys s => mass w s ≤ (keys.map fun key => w (lh.pos key)).sum)
    (fun keys key hok k hk => hok k (by simp [hk])) (by simp) ?_ keys hlen hw
  intro keys key s t hok hlen hs hinv hunit
  have hgrow := mass_unitStep w hunit hs.copied (hok key (by simp)) (hs.slot_room hlen)
  simpa using hgrow.trans (Nat.add_le_add_right hinv _)

end ElasticSketch
end SketchMonitor
