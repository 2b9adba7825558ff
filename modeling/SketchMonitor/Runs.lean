import Mathlib.Data.List.Induction
import Mathlib.Tactic

/-!
# Runs of a partial step function

A run folds a step function that may fail over the list of its inputs. The rules
below carry an invariant that may speak about the inputs consumed so far:
`run_total` when every step is also known to succeed, `run_preserves` when only
the runs that succeed matter. `mapM_eq_some_iff` is the rule for a list of
independent steps.
-/

namespace SketchMonitor
namespace Runs

variable {σ α : Type*}

def run (step : σ → α → Option σ) (s : σ) (xs : List α) : Option σ := xs.foldlM step s

@[simp] theorem run_nil (step : σ → α → Option σ) (s : σ) : run step s [] = some s := rfl

@[simp] theorem run_cons (step : σ → α → Option σ) (s : σ) (x : α) (xs : List α) :
    run step s (x :: xs) = (step s x).bind fun t => run step t xs := rfl

theorem run_append (step : σ → α → Option σ) (s : σ) (xs ys : List α) :
    run step s (xs ++ ys) = (run step s xs).bind fun t => run step t ys := by
  simp [run, List.foldlM_append]

theorem run_concat (step : σ → α → Option σ) (s : σ) (xs : List α) (x : α) :
    run step s (xs ++ [x]) = (run step s xs).bind fun t => step t x := by
  rw [run_append]
  congr 1
  funext t
  cases h : step t x <;> simp [h]

/-- A run that succeeds has succeeded on every prefix of its inputs. -/
theorem exists_run_of_prefix {step : σ → α → Option σ} {s t : σ} {xs ys : List α} (h : xs <+: ys)
    (hrun : run step s ys = some t) : ∃ u, run step s xs = some u := by
  obtain ⟨zs, rfl⟩ := h
  rw [run_append, Option.bind_eq_some_iff] at hrun
  obtain ⟨u, hu, -⟩ := hrun
  exact ⟨u, hu⟩

/-- If each step allowed by the inputs succeeds and keeps the invariant, then so
does every run. `Ok` limits the inputs and is inherited by prefixes. -/
theorem run_total {step : σ → α → Option σ} {s₀ : σ} (Ok : List α → Prop)
    (Inv : List α → σ → Prop) (hpre : ∀ xs x, Ok (xs ++ [x]) → Ok xs) (h₀ : Inv [] s₀)
    (hstep : ∀ xs x s, Ok (xs ++ [x]) → Inv xs s → ∃ t, step s x = some t ∧ Inv (xs ++ [x]) t)
    (xs : List α) (hok : Ok xs) : ∃ s, run step s₀ xs = some s ∧ Inv xs s := by
  induction xs using List.reverseRecOn with
  | nil => exact ⟨s₀, rfl, h₀⟩
  | append_singleton xs x ih =>
    obtain ⟨s, hs, hinv⟩ := ih (hpre xs x hok)
    obtain ⟨t, ht, hinv'⟩ := hstep xs x s hok hinv
    exact ⟨t, by rw [run_concat, hs, Option.bind_some, ht], hinv'⟩

/-- An invariant kept by the steps that succeed holds after every successful run. -/
theorem run_preserves {step : σ → α → Option σ} {s₀ : σ} (Inv : List α → σ → Prop)
    (h₀ : Inv [] s₀)
    (hstep : ∀ xs x s t, Inv xs s → step s x = some t → Inv (xs ++ [x]) t)
    (xs : List α) (s : σ) (hrun : run step s₀ xs = some s) : Inv xs s := by
  induction xs using List.reverseRecOn generalizing s with
  | nil =>
    obtain rfl : s₀ = s := by simpa using hrun
    exact h₀
  | append_singleton xs x ih =>
    rw [run_concat, Option.bind_eq_some_iff] at hrun
    obtain ⟨t, ht, hx⟩ := hrun
    exact hstep xs x t s (ih t ht) hx

/-- The same for an invariant that only the allowed steps keep. -/
theorem run_preserves_of {step : σ → α → Option σ} {s₀ : σ} (Ok : α → Prop) (Inv : σ → Prop)
    (h₀ : Inv s₀) (hstep : ∀ s x t, Ok x → Inv s → step s x = some t → Inv t) (xs : List α)
    (hok : ∀ x ∈ xs, Ok x) (s : σ) (hrun : run step s₀ xs = some s) : Inv s := by
  refine run_preserves (fun xs s => (∀ x ∈ xs, Ok x) → Inv s) (fun _ => h₀) ?_ xs s hrun hok
  intro xs x s t ih ht hxs
  exact hstep s x t (hxs x (by simp)) (ih fun y hy => hxs y (by simp [hy])) ht

/-- A step behind a guard. -/
theorem of_guard {p : Prop} [Decidable p] {s t : σ} (h : (if p then some s else none) = some t) :
    p ∧ s = t := by
  obtain ⟨hp,hs⟩ := Option.ite_none_right_eq_some.mp h
  exact ⟨hp,Option.some.inj hs⟩

/-- If a measure falls with every step, it bounds the number of steps. -/
theorem run_length_le {step : σ → α → Option σ} {measure : σ → ℕ}
    (hstep : ∀ s x t, step s x = some t → measure t < measure s) (xs : List α) (s t : σ)
    (hrun : run step s xs = some t) : xs.length + measure t ≤ measure s := by
  induction xs generalizing s with
  | nil =>
    obtain rfl : s = t := by simpa using hrun
    simp
  | cons x xs ih =>
    rw [run_cons, Option.bind_eq_some_iff] at hrun
    obtain ⟨u,hu,hrest⟩ := hrun
    have hle := ih u hrest
    have hlt := hstep s x u hu
    rw [List.length_cons]
    omega

/-- If a measure falls with every step and some allowed step is possible wherever the goal is
not reached, then every state has a run of allowed steps to the goal. -/
theorem exists_run_to {step : σ → α → Option σ} {measure : σ → ℕ}
    (hstep : ∀ s x t, step s x = some t → measure t < measure s) (Ok : α → Prop)
    (Inv Goal : σ → Prop) (hinv : ∀ s x t, Ok x → Inv s → step s x = some t → Inv t)
    (hprogress : ∀ s, Inv s → ¬ Goal s → ∃ x, Ok x ∧ (step s x).isSome) (s : σ) (hs : Inv s) :
    ∃ xs t, (∀ x ∈ xs, Ok x) ∧ run step s xs = some t ∧ Goal t := by
  induction hn : measure s using Nat.strong_induction_on generalizing s with
  | h n ih =>
    by_cases hgoal : Goal s
    · exact ⟨[],s,by simp,rfl,hgoal⟩
    · obtain ⟨x,hx,hsome⟩ := hprogress s hs hgoal
      obtain ⟨t,ht⟩ := Option.isSome_iff_exists.mp hsome
      have hlt := hstep s x t ht
      obtain ⟨xs,u,hok,hrun,hu⟩ := ih (measure t) (by omega) t (hinv s x t hx hs ht) rfl
      refine ⟨x :: xs,u,?_,by rw [run_cons, ht, Option.bind_some, hrun],hu⟩
      exact List.forall_mem_cons.mpr ⟨hx,hok⟩

/-- Steps that do not depend on each other: all of them succeed or there is no result. -/
theorem mapM_eq_some_iff {β : Type*} (f : α → Option β) (xs : List α) (ys : List β) :
    xs.mapM f = some ys ↔ xs.map f = ys.map some := by
  induction xs generalizing ys with
  | nil => cases ys <;> simp
  | cons x xs ih =>
    simp only [List.mapM_cons, Option.pure_def, Option.bind_eq_bind, Option.bind_eq_some_iff,
      Option.some.injEq, List.map_cons]
    constructor
    · rintro ⟨y,hy,zs,hzs,rfl⟩
      rw [List.map_cons, hy, (ih zs).mp hzs]
    · intro h
      cases ys with
      | nil => simp at h
      | cons y ys =>
        rw [List.map_cons, List.cons.injEq] at h
        exact ⟨y,h.1,ys,(ih ys).mpr h.2,rfl⟩

theorem mapM_eq_some_map {β : Type*} {f : α → Option β} {g : α → β} {xs : List α}
    (h : ∀ x ∈ xs, f x = some (g x)) : xs.mapM f = some (xs.map g) := by
  rw [mapM_eq_some_iff, List.map_map]
  exact List.map_congr_left h

theorem exists_of_mapM_eq_some {β : Type*} {f : α → Option β} {xs : List α} {ys : List β}
    (h : xs.mapM f = some ys) {x : α} (hx : x ∈ xs) : ∃ y, f x = some y := by
  have hmem : f x ∈ ys.map some := by
    rw [← (mapM_eq_some_iff f xs ys).mp h]
    exact List.mem_map_of_mem hx
  obtain ⟨y,-,hy⟩ := List.mem_map.mp hmem
  exact ⟨y,hy.symm⟩

theorem mapM_ite_eq_some_iff {β : Type*} (P : α → Prop) [DecidablePred P] (g : α → β)
    (xs : List α) (ys : List β) : (xs.mapM fun x => if P x then some (g x) else none) = some ys ↔
      (∀ x ∈ xs, P x) ∧ ys = xs.map g := by
  constructor
  · intro h
    have hP : ∀ x ∈ xs, P x := by
      intro x hx
      obtain ⟨y,hy⟩ := exists_of_mapM_eq_some h hx
      exact (Option.ite_none_right_eq_some.mp hy).1
    rw [mapM_eq_some_map fun x hx => if_pos (hP x hx)] at h
    exact ⟨hP,(Option.some.inj h).symm⟩
  · rintro ⟨hP,rfl⟩
    exact mapM_eq_some_map fun x hx => if_pos (hP x hx)

end Runs
end SketchMonitor
