import Mathlib.Algebra.BigOperators.Group.List.Basic
import Mathlib.Tactic

/-!
# Machines with outputs, alone and in lockstep

Two deterministic machines read the same inputs, each with its own states and
outputs. They agree on a run when related states stay related and each pair of
outputs is related. `agree_iff_allSteps` reduces this to a condition on the single
steps that says exactly when one step keeps the relation. For one machine,
`sum_conserved` adds up what each step moves from its inputs to its state and
outputs.
-/

namespace SketchMonitor
namespace Lockstep

variable {σ τ α β γ : Type*}

/-- The state after a run. -/
def final (f : σ → α → σ × β) (s : σ) (xs : List α) : σ := xs.foldl (fun s x => (f s x).1) s

/-- What a run puts out, in order. -/
def outputs (f : σ → α → σ × β) : σ → List α → List β
  | _, [] => []
  | s, x :: xs => (f s x).2 :: outputs f (f s x).1 xs

/-- States are related before every input and at the end, and so are the outputs. -/
def Agree (f : σ → α → σ × β) (g : τ → α → τ × γ) (R : σ → τ → Prop) (Q : β → γ → Prop) :
    σ → τ → List α → Prop
  | s, t, [] => R s t
  | s, t, x :: xs => R s t ∧ Q (f s x).2 (g t x).2 ∧ Agree f g R Q (f s x).1 (g t x).1 xs

/-- Each input meets the condition in the state that reads it. -/
def AllSteps (f : σ → α → σ × β) (Ok : σ → α → Prop) : σ → List α → Prop
  | _, [] => True
  | s, x :: xs => Ok s x ∧ AllSteps f Ok (f s x).1 xs

variable {f : σ → α → σ × β} {g : τ → α → τ × γ} {R : σ → τ → Prop} {Q : β → γ → Prop}

@[simp] theorem final_nil (s : σ) : final f s [] = s := rfl

@[simp] theorem final_cons (s : σ) (x : α) (xs : List α) :
    final f s (x :: xs) = final f (f s x).1 xs := rfl

theorem final_concat (s : σ) (xs : List α) (x : α) :
    final f s (xs ++ [x]) = (f (final f s xs) x).1 := by
  simp [final, List.foldl_append]

theorem Agree.start {s : σ} {t : τ} {xs : List α} (h : Agree f g R Q s t xs) : R s t := by
  cases xs with
  | nil => exact h
  | cons x xs => exact h.1

theorem Agree.final {s : σ} {t : τ} {xs : List α} (h : Agree f g R Q s t xs) :
    R (final f s xs) (Lockstep.final g t xs) := by
  induction xs generalizing s t with
  | nil => exact h
  | cons x xs ih => exact ih h.2.2

/-- If the condition says exactly when one step keeps the relation, the machines
agree on the runs whose steps all meet it. `Inv` is what the second machine keeps by
itself. -/
theorem agree_iff_allSteps {Ok : σ → α → Prop} (Inv : τ → Prop)
    (hinv : ∀ t x, Inv t → Inv (g t x).1)
    (hstep : ∀ s t x, R s t → Inv t → (Ok s x ↔ Q (f s x).2 (g t x).2 ∧ R (f s x).1 (g t x).1))
    (s : σ) (t : τ) (xs : List α) (hs : R s t) (ht : Inv t) :
    Agree f g R Q s t xs ↔ AllSteps f Ok s xs := by
  induction xs generalizing s t with
  | nil => exact iff_of_true hs trivial
  | cons x xs ih =>
    constructor
    · rintro ⟨-,hout,hrest⟩
      have hok := (hstep s t x hs ht).mpr ⟨hout,hrest.start⟩
      exact ⟨hok,(ih _ _ hrest.start (hinv t x ht)).mp hrest⟩
    · rintro ⟨hok,hrest⟩
      obtain ⟨hout,hnext⟩ := (hstep s t x hs ht).mp hok
      exact ⟨hs,hout,(ih _ _ hnext (hinv t x ht)).mpr hrest⟩

/-- If each step puts the weight of its input into the state or the output, then so
does the whole run. -/
theorem sum_conserved {M : Type*} [AddCommMonoid M] {Ok : σ → α → Prop} (held : σ → M) (out : β → M)
    (weight : α → M)
    (hstep : ∀ s x, Ok s x → held (f s x).1 + out (f s x).2 = held s + weight x)
    (s : σ) (xs : List α) (hok : AllSteps f Ok s xs) :
    held (final f s xs) + ((outputs f s xs).map out).sum = held s + (xs.map weight).sum := by
  induction xs generalizing s with
  | nil => simp [outputs]
  | cons x xs ih =>
    obtain ⟨hx,hrest⟩ := hok
    simp only [outputs, final_cons, List.map_cons, List.sum_cons]
    calc held (final f (f s x).1 xs) + (out (f s x).2 + ((outputs f (f s x).1 xs).map out).sum)
        = held (final f (f s x).1 xs) + ((outputs f (f s x).1 xs).map out).sum + out (f s x).2 := by
          abel
      _ = held (f s x).1 + out (f s x).2 + (xs.map weight).sum := by
          rw [ih _ hrest]
          abel
      _ = held s + (weight x + (xs.map weight).sum) := by rw [hstep s x hx, add_assoc]

end Lockstep
end SketchMonitor
