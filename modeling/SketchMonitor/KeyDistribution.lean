import Mathlib.Data.FinEnum
import Mathlib.Data.Int.CardIntervalMod
import Mathlib.Data.Vector.Basic
import SketchMonitor.BOBHash32

/-!
# How keys spread over positions

Every step of the hash function can be undone when the bytes are known, and the first block
can be recovered from what it adds. Counting the keys by their first block then gives the
number of keys of every hash value, and of every position.
-/

namespace SketchMonitor
namespace BOBHash32

theorem mixRight_inj {k x x' y z : UInt32} : mixRight k x y z = mixRight k x' y z ↔ x = x' := by
  simp [mixRight, UInt32.xor_left_inj]

theorem mixLeft_inj {k x x' y z : UInt32} : mixLeft k x y z = mixLeft k x' y z ↔ x = x' := by
  simp [mixLeft, UInt32.xor_left_inj]

/-- Three lines of `mix`. -/
def mixRound (ka kb kc : UInt32) (s : Words) : Words :=
  let a := mixRight ka s.a s.b s.c
  let b := mixLeft kb s.b s.c a
  let c := mixRight kc s.c a b
  ⟨a,b,c⟩

theorem mix_eq (s : Words) : mix s = mixRound 3 10 15 (mixRound 12 16 5 (mixRound 13 8 13 s)) := rfl

theorem mixRound_injective (ka kb kc : UInt32) : (mixRound ka kb kc).Injective := by
  rintro ⟨a,b,c⟩ ⟨a',b',c'⟩ h
  simp only [mixRound, Words.mk.injEq] at h
  obtain ⟨ha,hb,hc⟩ := h
  rw [hb, ha, mixRight_inj] at hc
  rw [ha, hc, mixLeft_inj] at hb
  rw [hb, hc, mixRight_inj] at ha
  rw [ha, hb, hc]

theorem mix_injective : mix.Injective := by
  intro s t h
  rw [mix_eq, mix_eq] at h
  exact mixRound_injective 13 8 13 (mixRound_injective 12 16 5 (mixRound_injective 3 10 15 h))

theorem ofChar32_toNat (x : UInt8) :
    (ofChar32 x).toNat = if x.toNat < 128 then x.toNat else x.toNat + (2^32 - 256) := by
  have h : ∀ x : Fin 256, (ofChar32 (UInt8.ofFin x)).toNat =
      if x.val < 128 then x.val else x.val + (2^32 - 256) := by
    decide +kernel
  exact h x.toFin

/-- A `char` has the value of its byte, or 256 less. -/
theorem ofChar32_spec (x : UInt8) : ∃ s : ℤ, -128 ≤ s ∧ s < 128 ∧ (x.toNat : ℤ) = s % 256 ∧
    ((ofChar32 x).toNat : ℤ) ≡ s [ZMOD 2^32] := by
  have hlt := x.toNat_lt
  rw [ofChar32_toNat]
  by_cases h : x.toNat < 128
  · exact ⟨x.toNat,by omega,by omega,by omega,by rw [if_pos h]⟩
  · refine ⟨x.toNat - 256,by omega,by omega,by omega,?_⟩
    rw [if_neg h, Int.modEq_iff_dvd]
    exact ⟨-1,by push_cast; ring⟩

/-- The four bytes are signed digits of the word. -/
theorem word_toNat (x₀ x₁ x₂ x₃ : UInt8) :
    (ofChar32 x₀ + (ofChar32 x₁ <<< 8) + (ofChar32 x₂ <<< 16) + (ofChar32 x₃ <<< 24)).toNat =
      ((ofChar32 x₀).toNat + (ofChar32 x₁).toNat * 2^8 + (ofChar32 x₂).toNat * 2^16 +
        (ofChar32 x₃).toNat * 2^24) % 2^32 := by
  simp only [UInt32.toNat_add, UInt32.toNat_shiftLeft, UInt32.toNat_ofNat, Nat.shiftLeft_eq,
    Nat.reducePow, Nat.reduceMod]
  omega

/-- Signed digits are unique. -/
theorem digit_inj {s t S T m : ℤ} (hs : -128 ≤ s ∧ s < 128) (ht : -128 ≤ t ∧ t < 128)
    (h : s + 256 * S ≡ t + 256 * T [ZMOD 256 * m]) : s = t ∧ S ≡ T [ZMOD m] := by
  have hlow : s ≡ t [ZMOD 256] := by
    have hmod := h.of_mul_right m
    rwa [Int.ModEq, Int.add_mul_emod_self_left, Int.add_mul_emod_self_left] at hmod
  obtain rfl : s = t := by
    rw [Int.ModEq] at hlow
    omega
  exact ⟨rfl,(h.add_left_cancel' s).mul_left_cancel' (by decide)⟩

theorem word_digits_inj {x₀ x₁ x₂ x₃ y₀ y₁ y₂ y₃ : UInt8}
    (h : ofChar32 x₀ + (ofChar32 x₁ <<< 8) + (ofChar32 x₂ <<< 16) + (ofChar32 x₃ <<< 24) =
      ofChar32 y₀ + (ofChar32 y₁ <<< 8) + (ofChar32 y₂ <<< 16) + (ofChar32 y₃ <<< 24)) :
    x₀ = y₀ ∧ x₁ = y₁ ∧ x₂ = y₂ ∧ x₃ = y₃ := by
  have hnat := congrArg (fun w : UInt32 => (w.toNat : ℤ)) h
  simp only [word_toNat] at hnat
  push_cast at hnat
  obtain ⟨s₀,hs₀,hs₀',hx₀,hs₀m⟩ := ofChar32_spec x₀
  obtain ⟨s₁,hs₁,hs₁',hx₁,hs₁m⟩ := ofChar32_spec x₁
  obtain ⟨s₂,hs₂,hs₂',hx₂,hs₂m⟩ := ofChar32_spec x₂
  obtain ⟨s₃,hs₃,hs₃',hx₃,hs₃m⟩ := ofChar32_spec x₃
  obtain ⟨t₀,ht₀,ht₀',hy₀,ht₀m⟩ := ofChar32_spec y₀
  obtain ⟨t₁,ht₁,ht₁',hy₁,ht₁m⟩ := ofChar32_spec y₁
  obtain ⟨t₂,ht₂,ht₂',hy₂,ht₂m⟩ := ofChar32_spec y₂
  obtain ⟨t₃,ht₃,ht₃',hy₃,ht₃m⟩ := ofChar32_spec y₃
  have hs := ((hs₀m.add (hs₁m.mul_right (2^8))).add (hs₂m.mul_right (2^16))).add (hs₃m.mul_right (2^24))
  have ht := ((ht₀m.add (ht₁m.mul_right (2^8))).add (ht₂m.mul_right (2^16))).add (ht₃m.mul_right (2^24))
  have hsum : s₀ + 256 * (s₁ + 256 * (s₂ + 256 * (s₃ + 256 * 0))) ≡
      t₀ + 256 * (t₁ + 256 * (t₂ + 256 * (t₃ + 256 * 0))) [ZMOD 256 * (256 * (256 * (256 * 1)))] := by
    convert (hs.symm.trans hnat).trans ht using 1 <;> ring
  obtain ⟨rfl,h₁⟩ := digit_inj ⟨hs₀,hs₀'⟩ ⟨ht₀,ht₀'⟩ hsum
  obtain ⟨rfl,h₂⟩ := digit_inj ⟨hs₁,hs₁'⟩ ⟨ht₁,ht₁'⟩ h₁
  obtain ⟨rfl,h₃⟩ := digit_inj ⟨hs₂,hs₂'⟩ ⟨ht₂,ht₂'⟩ h₂
  obtain ⟨rfl,-⟩ := digit_inj ⟨hs₃,hs₃'⟩ ⟨ht₃,ht₃'⟩ h₃
  refine ⟨?_,?_,?_,?_⟩ <;> rw [← UInt8.toNat_inj, ← Nat.cast_inj (R := ℤ)]
  · rw [hx₀, hy₀]
  · rw [hx₁, hy₁]
  · rw [hx₂, hy₂]
  · rw [hx₃, hy₃]

theorem word_inj {v w : List UInt8} {i : ℕ} (h : word v i = word w i) :
    v.getD i 0 = w.getD i 0 ∧ v.getD (i+1) 0 = w.getD (i+1) 0 ∧
      v.getD (i+2) 0 = w.getD (i+2) 0 ∧ v.getD (i+3) 0 = w.getD (i+3) 0 :=
  word_digits_inj h

/-- A block is determined by what it adds to the state. -/
theorem addBlock_injective (s : Words) :
    (fun v : List.Vector UInt8 12 => addBlock s v.1).Injective := by
  intro v w h
  obtain ⟨ha,hb,hc⟩ := Words.mk.inj h
  obtain ⟨h₀,h₁,h₂,h₃⟩ := word_inj (UInt32.add_right_inj s.a |>.mp ha)
  obtain ⟨h₄,h₅,h₆,h₇⟩ := word_inj (UInt32.add_right_inj s.b |>.mp hb)
  obtain ⟨h₈,h₉,h₁₀,h₁₁⟩ := word_inj (UInt32.add_right_inj s.c |>.mp hc)
  refine Subtype.ext (List.ext_getElem (v.2.trans w.2.symm) fun i hi hi' => ?_)
  rw [← List.getD_eq_getElem _ 0 hi, ← List.getD_eq_getElem _ 0 hi']
  rw [v.2] at hi
  interval_cases i <;> assumption

theorem addByte_inj {str : List UInt8} {i : ℕ} {shift x y : UInt32} :
    addByte str i shift x = addByte str i shift y ↔ x = y := by
  unfold addByte
  split_ifs
  · exact UInt32.add_left_inj _
  · rfl

theorem addTail_injective (str : List UInt8) : (addTail · str).Injective := by
  rintro ⟨a,b,c⟩ ⟨a',b',c'⟩ h
  simpa only [addTail, Words.mk.injEq, addByte_inj, UInt32.add_left_inj] using h

/-- The blocks leave the same bytes from every state, and different states different. -/
theorem blocks_injective (s t : Words) (str : List UInt8) :
    (blocks s str).2 = (blocks t str).2 ∧ ((blocks s str).1 = (blocks t str).1 → s = t) := by
  induction hn : str.length using Nat.strong_induction_on generalizing s t str with
  | h n ih =>
    rw [blocks.eq_1 s, blocks.eq_1 t]
    split_ifs with hlen
    · obtain ⟨hrest,hstate⟩ := ih (str.drop 12).length (by rw [List.length_drop]; omega)
        (mix (addBlock s str)) (mix (addBlock t str)) _ rfl
      refine ⟨hrest,fun h => ?_⟩
      obtain ⟨ha,hb,hc⟩ := Words.mk.inj (mix_injective (hstate h))
      exact Words.ext ((UInt32.add_left_inj _).mp ha) ((UInt32.add_left_inj _).mp hb)
        ((UInt32.add_left_inj _).mp hc)
    · exact ⟨rfl,id⟩

theorem finish_injective (str : List UInt8) : (finish · str).Injective := by
  intro s t h
  obtain ⟨hrest,hstate⟩ := blocks_injective s t str
  have htail := mix_injective h
  rw [hrest] at htail
  exact hstate (addTail_injective _ htail)

theorem word_append (v w : List UInt8) {i : ℕ} (hi : i + 3 < v.length) : word (v ++ w) i = word v i := by
  unfold word
  rw [List.getD_append _ _ _ _ (by omega), List.getD_append _ _ _ _ (by omega),
    List.getD_append _ _ _ _ (by omega), List.getD_append _ _ _ _ hi]

theorem finish_append (s : Words) {v : List UInt8} (w : List UInt8) (hv : v.length = 12) :
    finish s (v ++ w) = finish (mix (addBlock s v)) w := by
  have hblock : addBlock s (v ++ w) = addBlock s v := by
    rw [addBlock, word_append v w (by omega), word_append v w (by omega), word_append v w (by omega)]
    rfl
  have hblocks : blocks s (v ++ w) = blocks (mix (addBlock s v)) w := by
    rw [blocks, if_pos (by rw [List.length_append]; omega), hblock, ← hv, List.drop_left]
  rw [finish, hblocks]
  rfl

/-- The state as a triple. -/
def Words.equiv : Words ≃ (UInt32 × UInt32) × UInt32 where
  toFun s := ((s.a,s.b),s.c)
  invFun x := ⟨x.1.1,x.1.2,x.2⟩
  left_inv _ := rfl
  right_inv _ := rfl

instance : Finite Words := Finite.of_equiv _ Words.equiv.symm

theorem card_uint32 : Nat.card UInt32 = 2^32 := by
  rw [Nat.card_eq_fintype_card, ← FinEnum.card_eq_fintypeCard]
  rfl

theorem card_bytes (len : ℕ) : Nat.card (List.Vector UInt8 len) = 256^len := by
  rw [Nat.card_eq_fintype_card, card_vector, ← FinEnum.card_eq_fintypeCard]
  rfl

theorem card_words : Nat.card Words = 256^12 := by
  rw [Nat.card_congr Words.equiv, Nat.card_prod, Nat.card_prod, card_uint32]
  norm_num

theorem hashValue_equidistributed : Equidistributed Words.c (2^64) := by
  have hsnd : Equidistributed (Prod.snd : (UInt32 × UInt32) × UInt32 → UInt32) (2^64) := by
    have hcard : Nat.card (UInt32 × UInt32) = 2^64 := by
      rw [Nat.card_prod, card_uint32]
      norm_num
    rw [← hcard]
    exact Equidistributed.snd
  exact hsnd.comp_bijective Words.equiv.bijective

/-- Whatever follows the first block, every hash value is taken equally often. -/
theorem block_equidistributed (s : Words) (w : List UInt8) :
    Equidistributed (fun v : List.Vector UInt8 12 => (finish s (v.1 ++ w)).c) (2^64) := by
  have hbij : (fun v : List.Vector UInt8 12 => finish (mix (addBlock s v.1)) w).Bijective := by
    refine (Nat.bijective_iff_injective_and_card _).mpr ⟨?_,by rw [card_bytes, card_words]⟩
    exact (finish_injective w).comp (mix_injective.comp (addBlock_injective s))
  have hcomp := hashValue_equidistributed.comp_bijective hbij
  refine fun b => (congrArg (fun f => Nat.card {v // f v = b}) (funext fun v => ?_)).trans (hcomp b)
  rw [finish_append s w v.2]
  rfl

/-- The first block and the rest. -/
def splitBlock (m : ℕ) : List.Vector UInt8 (12 + m) ≃ List.Vector UInt8 12 × List.Vector UInt8 m where
  toFun str := (⟨str.1.take 12,by rw [List.length_take, str.2]; omega⟩,
    ⟨str.1.drop 12,by rw [List.length_drop, str.2]; omega⟩)
  invFun x := ⟨x.1.1 ++ x.2.1,by rw [List.length_append, x.1.2, x.2.2]⟩
  left_inv str := Subtype.ext (List.take_append_drop 12 str.1)
  right_inv x := Prod.ext (Subtype.ext (List.take_left' x.1.2)) (Subtype.ext (List.drop_left' x.1.2))

/-- Keys of one length from twelve bytes on take every hash value equally often. -/
theorem run_equidistributed (h : BOBHash32) {len : ℕ} (hlen : 12 ≤ len) :
    Equidistributed (fun str : List.Vector UInt8 len => h.run str.1) (256^(len-4)) := by
  obtain ⟨m,rfl⟩ := Nat.exists_eq_add_of_le hlen
  have hpair : Equidistributed (fun x : List.Vector UInt8 12 × List.Vector UInt8 m =>
      h.run (x.1.1 ++ x.2.1)) (Nat.card (List.Vector UInt8 m) * 2^64) :=
    Equidistributed.of_section fun w => block_equidistributed h.start w.1
  have hcount : Nat.card (List.Vector UInt8 m) * 2^64 = 256^(12+m-4) := by
    rw [card_bytes, show 12 + m - 4 = m + 8 by omega, pow_add]
    norm_num
  rw [hcount] at hpair
  refine fun b => (congrArg (fun f => Nat.card {str // f str = b}) (funext fun str => ?_)).trans
    (hpair.comp_bijective (splitBlock m).bijective b)
  exact congrArg h.run (List.take_append_drop 12 str.1).symm

/-- Of the keys of one length, which must be at least twelve, each hash value has as many. -/
theorem card_run (h : BOBHash32) (len : ℕ) (hlen : 12 ≤ len) (v : UInt32) :
    Nat.card {str : List.Vector UInt8 len // h.run str.1 = v} = 256^(len-4) :=
  h.run_equidistributed hlen v

theorem card_run_thirteen : 12 ≤ 13 ∧
    ∀ v, Nat.card {str : List.Vector UInt8 13 // heavy.run str.1 = v} = 256^(13-4) :=
  ⟨by decide,fun v => card_run heavy 13 (by decide) v⟩

def keyBytes : Key ≃ List.Vector UInt8 13 where
  toFun key := ⟨key.bytes,key.length_eq⟩
  invFun str := ⟨str.1,str.2⟩
  left_inv _ := rfl
  right_inv _ := rfl

instance : Finite Key := Finite.of_equiv _ keyBytes.symm

/-- The hash values that are congruent to a position. -/
theorem card_residues {size : ℕ} (size_pos : 0 < size) {p : ℕ} (hp : p < size) :
    Nat.card {v : UInt32 // v.toNat % size = p} =
      2^32 / size + if p < 2^32 % size then 1 else 0 := by
  have hsplit : {v : UInt32 // v.toNat % size = p} ≃ {i // i < 2^32 ∧ i ≡ p [MOD size]} :=
    { toFun := fun v => ⟨v.1.toNat,v.1.toNat_lt,by rw [Nat.ModEq, v.2, Nat.mod_eq_of_lt hp]⟩
      invFun := fun i => ⟨UInt32.ofNatLT i.1 i.2.1,by
        have hmod := i.2.2
        rwa [Nat.ModEq, Nat.mod_eq_of_lt hp] at hmod⟩
      left_inv := fun v => Subtype.ext (UInt32.toNat_inj.mp rfl)
      right_inv := fun _ => rfl }
  have hcount := Nat.count_modEq_card (2^32) size_pos p
  rw [Nat.mod_eq_of_lt hp] at hcount
  let := Nat.CountSet.fintype (· ≡ p [MOD size]) (2^32)
  rw [Nat.card_congr hsplit, ← hcount, Nat.count_eq_card_fintype, Nat.card_eq_fintype_card]

/-- The numbers of keys of two positions differ by at most `256 ^ 9` of the `256 ^ 13` keys. -/
theorem card_position (h : BOBHash32) (size : ℕ) (size_pos : 0 < size) (size_lt : size < 2^31)
    (p : Fin size) : Nat.card {key // (h.hashing size size_pos size_lt).pos key = p} =
      256^9 * (2^32 / size + if p < 2^32 % size then 1 else 0) := by
  have hrun := (h.run_equidistributed (show 12 ≤ 13 by decide)).comp_bijective keyBytes.bijective
  have hcard := hrun.card_preimage fun v => v.toNat % size = p
  rw [card_residues size_pos p.2] at hcard
  rw [← hcard]
  exact Nat.card_congr (Equiv.subtypeEquivRight fun key => Fin.ext_iff)

theorem card_position_heavy : (0 < 64 ∧ 64 < 2^31) ∧ ∀ p : Fin 64,
    Nat.card {key // (heavy.hashing 64 (by decide) (by decide)).pos key = p} = 2^98 := by
  refine ⟨by decide,fun p => ?_⟩
  rw [card_position heavy 64 (by decide) (by decide) p]
  norm_num

end BOBHash32
end SketchMonitor
