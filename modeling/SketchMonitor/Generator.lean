import Mathlib.Data.Set.Card
import Mathlib.Order.Bounds.Basic
import Mathlib.Tactic

/-!
# Generators that step to the least successor

A generator is called repeatedly; each call changes its state and reports whether
it has produced something. If every call moves to the least member of a finite set
above the current position, or reports that there is none, then repeated calls run
through the members above the start in increasing order and then stop.
-/

namespace SketchMonitor
namespace Generator

variable {σ α : Type*}

/-- Repeated calls report true, passing through the listed states, and then false. -/
inductive Drains (next : σ → σ × Bool) : σ → List σ → Prop
  | stop {s : σ} (h : (next s).2 = false) : Drains next s []
  | step {s : σ} {ts : List σ} (h : (next s).2 = true) (hrest : Drains next (next s).1 ts) :
      Drains next s ((next s).1 :: ts)

/-- The states of at most `n` calls, up to the first that reports false. -/
def collect (next : σ → σ × Bool) : ℕ → σ → List σ
  | 0, _ => []
  | n+1, s => if (next s).2 then (next s).1 :: collect next n (next s).1 else []

variable {next : σ → σ × Bool}

theorem Drains.collect_eq {s : σ} {ts : List σ} (h : Drains next s ts) {n : ℕ} (hn : ts.length ≤ n) :
    collect next n s = ts := by
  induction h generalizing n with
  | stop h => cases n <;> simp [collect, h]
  | step h hrest ih =>
    obtain ⟨m,rfl⟩ : ∃ m, n = m + 1 := ⟨n - 1,by simp only [List.length_cons] at hn; omega⟩
    rw [collect, if_pos h, ih (by simpa using hn)]

/-- A call moves to the least member of `V` above the position, or there is none. -/
structure LeastSteps [Preorder α] (next : σ → σ × Bool) (pos : σ → α) (Inv : σ → Prop) (V : Set α) :
    Prop where
  keeps : ∀ s, Inv s → (next s).2 = true → Inv (next s).1
  least : ∀ s, Inv s → (next s).2 = true → IsLeast {x | x ∈ V ∧ pos s < x} (pos (next s).1)
  none : ∀ s, Inv s → (next s).2 = false → ∀ x ∈ V, ¬ pos s < x

/-- What such calls run through: the members above the start, in order. -/
theorem LeastSteps.drains [PartialOrder α] {pos : σ → α} {Inv : σ → Prop} {V : Set α}
    (h : LeastSteps next pos Inv V) (hV : V.Finite) (s : σ) (hs : Inv s) :
    ∃ ts, Drains next s ts ∧ (∀ t ∈ ts, Inv t) ∧ (ts.map pos).Pairwise (· < ·) ∧
      ∀ x, x ∈ ts.map pos ↔ x ∈ V ∧ pos s < x := by
  have hfin (s : σ) : {x | x ∈ V ∧ pos s < x}.Finite := hV.subset fun x hx => hx.1
  -- the members above the position become fewer with every call
  induction hn : {x | x ∈ V ∧ pos s < x}.ncard using Nat.strong_induction_on generalizing s with
  | h n ih =>
    cases hb : (next s).2 with
    | false =>
      exact ⟨[],.stop hb,by simp,by simp,fun x => by simpa using h.none s hs hb x⟩
    | true =>
      have hleast := h.least s hs hb
      have hsub : {x | x ∈ V ∧ pos (next s).1 < x} ⊂ {x | x ∈ V ∧ pos s < x} := by
        refine ⟨fun x hx => ⟨hx.1,hleast.1.2.trans hx.2⟩,fun hsup => ?_⟩
        exact absurd (hsup hleast.1).2 (lt_irrefl _)
      obtain ⟨ts,hts,hinv,hsorted,hmem⟩ := ih _ (hn ▸ Set.ncard_lt_ncard hsub (hfin s)) (next s).1
        (h.keeps s hs hb) rfl
      refine ⟨(next s).1 :: ts,.step hb hts,?_,?_,?_⟩
      · simpa using ⟨h.keeps s hs hb,hinv⟩
      · rw [List.map_cons, List.pairwise_cons]
        exact ⟨fun x hx => ((hmem x).mp hx).2,hsorted⟩
      · intro x
        rw [List.map_cons, List.mem_cons, hmem]
        constructor
        · rintro (rfl | hx)
          · exact hleast.1
          · exact hsub.1 hx
        · intro hx
          rcases (hleast.2 hx).eq_or_lt with heq | hlt
          · exact Or.inl heq.symm
          · exact Or.inr ⟨hx.1,hlt⟩

end Generator
end SketchMonitor
