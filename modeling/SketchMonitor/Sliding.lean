import Mathlib.GroupTheory.Perm.Basic
import Mathlib.Tactic

/-!
# Moving contents along a path of slots

Along a path, from its end to its start, each slot takes over what the slot before it
holds at that time. The path may come back to a slot. `slide` says what the slots hold
afterwards and `source` which slot a slot was last written from; on a path without
repetition the two agree. Up to the first slot the moves are a permutation, whatever
the path.
-/

namespace SketchMonitor
namespace Sliding

variable {S A : Type*} [DecidableEq S]

/-- The contents after the moves; the first slot keeps what it holds at the end. -/
def slide (κ : S → A) : List S → S → A
  | [] => κ
  | [_] => κ
  | p :: q :: path => Function.update (slide κ (q :: path)) q (slide κ (q :: path) p)

/-- The slot from which a slot has been written last: the one before its first place on
the path. -/
def source : List S → S → S
  | [] => id
  | [_] => id
  | p :: q :: path => Function.update (source (q :: path)) q p

theorem slide_of_notMem {κ : S → A} {x : S} {path : List S} (h : x ∉ path.tail) :
    slide κ path x = κ x := by
  induction path with
  | nil => rfl
  | cons p path ih =>
    cases path with
    | nil => rfl
    | cons q path =>
      rw [List.tail_cons, List.mem_cons, not_or] at h
      rw [slide, Function.update_of_ne h.1, ih h.2]

theorem source_of_notMem {x : S} {path : List S} (h : x ∉ path.tail) : source path x = x := by
  induction path with
  | nil => rfl
  | cons p path ih =>
    cases path with
    | nil => rfl
    | cons q path =>
      rw [List.tail_cons, List.mem_cons, not_or] at h
      rw [source, Function.update_of_ne h.1, ih h.2]

/-- Nothing comes from outside the path. -/
theorem slide_id_mem {x : S} {path : List S} (hx : x ∈ path) : slide id path x ∈ path := by
  induction path generalizing x with
  | nil => cases hx
  | cons p path ih =>
    cases path with
    | nil => exact hx
    | cons q path =>
      have hfirst : slide id (q :: path) p ∈ p :: q :: path := by
        by_cases hp : p ∈ q :: path
        · exact List.mem_cons_of_mem p (ih hp)
        · rw [slide_of_notMem fun hmem => hp (List.mem_cons_of_mem q hmem)]
          exact List.mem_cons_self
      rw [slide, Function.update_apply]
      split_ifs with hq
      · exact hfirst
      · rcases List.mem_cons.mp hx with rfl | hx
        · exact hfirst
        · exact List.mem_cons_of_mem p (ih hx)

/-- Away from the first slot, what a slot holds afterwards is given by a permutation,
which takes the first slot to the last. -/
theorem exists_perm_slide (p : S) (path : List S) : ∃ σ : Equiv.Perm S,
    σ p = (p :: path).getLast (List.cons_ne_nil p path) ∧ ∀ x ≠ p, slide id (p :: path) x = σ x := by
  induction path generalizing p with
  | nil => exact ⟨1,rfl,fun _ _ => rfl⟩
  | cons q path ih =>
    obtain ⟨σ,hlast,hσ⟩ := ih q
    refine ⟨σ * Equiv.swap p q,?_,fun x hx => ?_⟩
    · rw [Equiv.Perm.mul_apply, Equiv.swap_apply_left, hlast,
        List.getLast_cons (List.cons_ne_nil q path)]
    · rw [slide, Function.update_apply, Equiv.Perm.mul_apply]
      split_ifs with hxq
      · rw [hxq, Equiv.swap_apply_right, hσ p (hxq ▸ hx.symm)]
      · rw [Equiv.swap_apply_of_ne_of_ne hx hxq, hσ x hxq]

/-- On a path without repetition, every slot ends with what the slot before it held. -/
theorem slide_id_of_nodup {path : List S} (h : path.Nodup) : slide id path = source path := by
  induction path with
  | nil => rfl
  | cons p path ih =>
    cases path with
    | nil => rfl
    | cons q path =>
      obtain ⟨hp,hnodup⟩ := List.nodup_cons.mp h
      rw [slide, source, ih hnodup, source_of_notMem fun hmem => hp (List.mem_cons_of_mem q hmem)]

end Sliding
end SketchMonitor
