import SketchMonitor.Lockstep

/-!
# Machines made of independent components

A family of machines of one kind, where each input is read by the component it is
sent to. What a component ends with, and what it puts out on the way, depends on the
inputs sent to it and their order alone. So two runs that send every component the
same inputs are alike, however the inputs of different components are interleaved.
-/

namespace SketchMonitor
namespace Components

open Lockstep

variable {ι α σ τ β : Type*} [DecidableEq ι] (idx : α → ι)

/-- One input is read by its component, the others stay as they are. -/
def step (f : σ → α → σ × β) (s : ι → σ) (x : α) : (ι → σ) × β :=
  let r := f (s (idx x)) x
  (Function.update s (idx x) r.1,r.2)

/-- The inputs sent to a component. -/
def inputsAt (i : ι) (xs : List α) : List α := xs.filter fun x => idx x = i

/-- What a machine puts out on the inputs sent to a component. -/
def outputsAt (g : τ → α → τ × β) (i : ι) : τ → List α → List β
  | _, [] => []
  | s, x :: xs =>
    if idx x = i then (g s x).2 :: outputsAt g i (g s x).1 xs else outputsAt g i (g s x).1 xs

variable {idx} {f : σ → α → σ × β}

theorem inputsAt_cons_self {i : ι} {x : α} (h : idx x = i) (xs : List α) :
    inputsAt idx i (x :: xs) = x :: inputsAt idx i xs := List.filter_cons_of_pos (by simpa using h)

theorem inputsAt_cons_of_ne {i : ι} {x : α} (h : idx x ≠ i) (xs : List α) :
    inputsAt idx i (x :: xs) = inputsAt idx i xs := List.filter_cons_of_neg (by simpa using h)

theorem step_self {i : ι} {x : α} (h : idx x = i) (s : ι → σ) :
    (step idx f s x).1 i = (f (s i) x).1 ∧ (step idx f s x).2 = (f (s i) x).2 := by
  subst h
  exact ⟨Function.update_self ..,rfl⟩

theorem step_of_ne {i : ι} {x : α} (h : idx x ≠ i) (s : ι → σ) : (step idx f s x).1 i = s i :=
  Function.update_of_ne h.symm ..

/-- A component runs on the inputs sent to it. -/
theorem final_step (s : ι → σ) (xs : List α) (i : ι) :
    final (step idx f) s xs i = final f (s i) (inputsAt idx i xs) := by
  induction xs generalizing s with
  | nil => rfl
  | cons x xs ih =>
    rw [final_cons, ih]
    by_cases hx : idx x = i
    · rw [inputsAt_cons_self hx, final_cons, (step_self hx s).1]
    · rw [inputsAt_cons_of_ne hx, step_of_ne hx]

theorem outputsAt_step (s : ι → σ) (xs : List α) (i : ι) :
    outputsAt idx (step idx f) i s xs = outputs f (s i) (inputsAt idx i xs) := by
  induction xs generalizing s with
  | nil => rfl
  | cons x xs ih =>
    rw [outputsAt, ih]
    by_cases hx : idx x = i
    · rw [if_pos hx, inputsAt_cons_self hx, outputs, (step_self hx s).1, (step_self hx s).2]
    · rw [if_neg hx, inputsAt_cons_of_ne hx, step_of_ne hx]

/-- Runs that send every component the same inputs end in the same state. -/
theorem final_eq_of_inputsAt (s : ι → σ) {xs ys : List α}
    (h : ∀ i, inputsAt idx i xs = inputsAt idx i ys) :
    final (step idx f) s xs = final (step idx f) s ys := by
  funext i
  rw [final_step, final_step, h i]

theorem outputsAt_eq_of_inputsAt (s : ι → σ) {xs ys : List α} {i : ι}
    (h : inputsAt idx i xs = inputsAt idx i ys) :
    outputsAt idx (step idx f) i s xs = outputsAt idx (step idx f) i s ys := by
  rw [outputsAt_step, outputsAt_step, h]

/-- A machine that simulates such a family has the same final states and outputs. -/
theorem simulates {g : τ → α → τ × β} (view : τ → ι → σ)
    (hstep : ∀ t x, view (g t x).1 = (step idx f (view t) x).1 ∧ (g t x).2 = (step idx f (view t) x).2)
    (t : τ) (xs : List α) :
    view (final g t xs) = final (step idx f) (view t) xs ∧
      ∀ i, outputsAt idx g i t xs = outputsAt idx (step idx f) i (view t) xs := by
  induction xs generalizing t with
  | nil => exact ⟨rfl,fun _ => rfl⟩
  | cons x xs ih =>
    obtain ⟨hview,hout⟩ := hstep t x
    obtain ⟨hfinal,houts⟩ := ih (g t x).1
    rw [hview] at hfinal houts
    refine ⟨hfinal,fun i => ?_⟩
    rw [outputsAt, outputsAt, houts i, hout]

end Components
end SketchMonitor
