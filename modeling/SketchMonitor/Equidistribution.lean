import Mathlib.SetTheory.Cardinal.Finite
import Mathlib.Tactic

/-!
# Equidistributed functions

A function of finite types is equidistributed if it takes every value equally often. This
is kept by bijections and by compositions, and a function of two arguments has it if it has
it in one of them for every value of the other.
-/

namespace SketchMonitor

variable {α β γ : Type*}

/-- Every value is taken by `n` arguments. -/
def Equidistributed (f : α → β) (n : ℕ) : Prop := ∀ b, Nat.card {a // f a = b} = n

namespace Equidistributed

theorem of_bijective {f : α → β} (hf : f.Bijective) : Equidistributed f 1 := by
  intro b
  obtain ⟨a,ha,hunique⟩ := hf.existsUnique b
  rw [Nat.card_eq_one_iff_unique]
  exact ⟨⟨fun x y => Subtype.ext ((hunique _ x.2).trans (hunique _ y.2).symm)⟩,⟨⟨a,ha⟩⟩⟩

/-- A property of the value holds of `n` times as many arguments as values. -/
theorem card_preimage [Finite α] [Finite β] {f : α → β} {n : ℕ} (hf : Equidistributed f n)
    (p : β → Prop) : Nat.card {a // p (f a)} = n * Nat.card {b // p b} := by
  classical
  have hsplit : {a // p (f a)} ≃ Σ b : {b // p b}, {a // f a = b} :=
    { toFun := fun a => ⟨⟨f a,a.2⟩,⟨a,rfl⟩⟩
      invFun := fun x => ⟨x.2,x.2.2.symm ▸ x.1.2⟩
      left_inv := fun _ => rfl
      right_inv := by
        rintro ⟨⟨b,hb⟩,a,ha⟩
        obtain rfl : f a = b := ha
        rfl }
  have := Fintype.ofFinite {b // p b}
  rw [Nat.card_congr hsplit, Nat.card_sigma, Finset.sum_congr rfl fun b _ => hf b.1,
    Finset.sum_const, Finset.card_univ, Nat.card_eq_fintype_card, smul_eq_mul, mul_comm]

theorem comp [Finite α] [Finite β] {f : α → β} {g : β → γ} {m n : ℕ} (hg : Equidistributed g m)
    (hf : Equidistributed f n) : Equidistributed (g ∘ f) (n * m) := by
  intro c
  rw [← hg c]
  exact hf.card_preimage fun b => g b = c

theorem comp_bijective [Finite α] [Finite β] {f : α → β} {g : β → γ} {m : ℕ}
    (hg : Equidistributed g m) (hf : f.Bijective) : Equidistributed (g ∘ f) m := by
  simpa using hg.comp (of_bijective hf)

/-- For each value of one argument all values are taken `n` times by the other. -/
theorem of_section [Finite α] [Finite β] {f : α × β → γ} {n : ℕ}
    (hf : ∀ b, Equidistributed (fun a => f (a,b)) n) : Equidistributed f (Nat.card β * n) := by
  classical
  intro c
  have hsplit : {x // f x = c} ≃ Σ b : β, {a // f (a,b) = c} :=
    { toFun := fun x => ⟨x.1.2,⟨x.1.1,x.2⟩⟩
      invFun := fun y => ⟨(y.2.1,y.1),y.2.2⟩
      left_inv := fun _ => rfl
      right_inv := fun _ => rfl }
  have := Fintype.ofFinite β
  rw [Nat.card_congr hsplit, Nat.card_sigma, Finset.sum_congr rfl fun b _ => hf b c,
    Finset.sum_const, Finset.card_univ, Nat.card_eq_fintype_card, smul_eq_mul]

theorem fst [Finite α] [Finite β] : Equidistributed (Prod.fst : α × β → α) (Nat.card β) := by
  have hfst : Equidistributed (Prod.fst : α × β → α) (Nat.card β * 1) :=
    of_section fun _ => of_bijective Function.bijective_id
  rwa [mul_one] at hfst


theorem snd [Finite α] [Finite β] : Equidistributed (Prod.snd : α × β → β) (Nat.card α) :=
  fst.comp_bijective (Equiv.prodComm α β).bijective

end Equidistributed
end SketchMonitor
