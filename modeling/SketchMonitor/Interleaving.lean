import Mathlib.Data.List.Flatten
import Mathlib.Tactic

/-!
# Interleavings of threads

A thread is the list of its atomic sections in program order. An interleaving
takes, until all threads are finished, the next section of some thread. Whatever
does not depend on the order of the sections is the same for every interleaving,
since each one is a permutation of all sections together.
-/

namespace SketchMonitor

variable {α : Type*}

/-- `Interleaving ts l`: the threads `ts` can execute their sections in the order `l`. -/
inductive Interleaving : List (List α) → List α → Prop
  | done {ts : List (List α)} (h : ∀ t ∈ ts, t = []) : Interleaving ts []
  | step {ts us : List (List α)} {a : α} {t l : List α} :
      Interleaving (ts ++ t :: us) l → Interleaving (ts ++ (a :: t) :: us) (a :: l)

namespace Interleaving

theorem perm {ts : List (List α)} {l : List α} (h : Interleaving ts l) : l.Perm ts.flatten := by
  induction h with
  | done h => rw [List.flatten_eq_nil_iff.mpr h]
  | @step ts us a t l _ ih =>
    have hhead : (a :: l).Perm (a :: (ts ++ t :: us).flatten) := ih.cons a
    have hmiddle : (a :: (ts ++ t :: us).flatten).Perm (ts ++ (a :: t) :: us).flatten := by
      simpa using (@List.perm_middle _ a ts.flatten (t ++ us.flatten)).symm
    exact hhead.trans hmiddle

/-- Sums of whatever each section contributes do not depend on the interleaving. -/
theorem sum_map {M : Type*} [AddCommMonoid M] {ts : List (List α)} {l : List α}
    (h : Interleaving ts l) (φ : α → M) :
    (l.map φ).sum = (ts.map fun t => (t.map φ).sum).sum := by
  rw [(h.perm.map φ).sum_eq, List.map_flatten, List.sum_flatten, List.map_map]
  rfl

theorem cons_nil {ts : List (List α)} {l : List α} (h : Interleaving ts l) :
    Interleaving ([] :: ts) l := by
  induction h with
  | done h => exact done (by simpa using h)
  | @step ts us a t l _ ih => exact @step _ ([] :: ts) us a t l ih

theorem cons_append (t : List α) {ts : List (List α)} {l : List α} (h : Interleaving ts l) :
    Interleaving (t :: ts) (t ++ l) := by
  induction t with
  | nil => exact cons_nil h
  | cons a t ih => exact @step _ [] ts a t _ ih

/-- One interleaving runs the threads one after the other. -/
theorem sequential (ts : List (List α)) : Interleaving ts ts.flatten := by
  induction ts with
  | nil => exact done (by simp)
  | cons t ts ih => exact cons_append t ih

/-- The threads are a family: their order does not matter. -/
theorem of_perm {ts us : List (List α)} {l : List α} (h : Interleaving ts l) (hperm : ts.Perm us) :
    Interleaving us l := by
  induction h generalizing us with
  | done h => exact done fun t ht => h t (hperm.mem_iff.mpr ht)
  | @step ts rest a t l _ ih =>
    obtain ⟨us₁,us₂,rfl⟩ : ∃ us₁ us₂, us = us₁ ++ (a :: t) :: us₂ :=
      List.append_of_mem (hperm.mem_iff.mp (by simp))
    have hothers : (ts ++ rest).Perm (us₁ ++ us₂) :=
      ((List.perm_middle.symm.trans hperm).trans List.perm_middle).cons_inv
    exact step (ih ((List.perm_middle.trans (hothers.cons t)).trans List.perm_middle.symm))

end Interleaving
end SketchMonitor
