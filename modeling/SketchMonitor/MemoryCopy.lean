import SketchMonitor.Runs

/-!
# Copies of memory byte by byte

A thread that copies a region of memory does so byte by byte. What it copies from and where it
copies to are parts of a state, given by the functions that read and replace them.
-/

namespace SketchMonitor
namespace MemoryCopy

variable {τ β : Type*}

/-- The place of a list in a state. -/
structure Region (τ β : Type*) where
  get : τ → List β
  set : τ → List β → τ
  get_set : ∀ t m, get (set t m) = m
  set_get : ∀ t, set t (get t) = t
  set_set : ∀ t m m', set (set t m) m' = set t m'

variable (src : τ → List β) (dst : Region τ β)

/-- One element. -/
def copyAt (k : ℕ) (t : τ) : Option τ :=
  (src t)[k]?.map fun b => dst.set t ((dst.get t).set k b)

/-- The statements of `memcpy(dst, src, n)`. -/
def memcpy (n : ℕ) : List (τ → Option τ) := (List.range n).map (copyAt src dst)

/-- The statements of a copy write to its destination. -/
theorem set_of_mem_memcpy {n : ℕ} {f : τ → Option τ} (hf : f ∈ memcpy src dst n) {t t' : τ}
    (ht : f t = some t') : ∃ m, t' = dst.set t m := by
  obtain ⟨k,-,rfl⟩ := List.mem_map.mp hf
  obtain ⟨b,-,rfl⟩ := Option.map_eq_some_iff.mp ht
  exact ⟨_,rfl⟩

theorem run_memcpy_of_le (hsrc : ∀ t m, src (dst.set t m) = src t) {t : τ} {n : ℕ}
    (hlength : (dst.get t).length = (src t).length) (hn : n ≤ (src t).length) :
    Runs.run (fun t f => f t) t (memcpy src dst n) =
      some (dst.set t ((src t).take n ++ (dst.get t).drop n)) := by
  induction n with
  | zero => simp [memcpy, dst.set_get]
  | succ n ih =>
    have hlt : n < (src t).length := hn
    have hcopy : memcpy src dst (n+1) = memcpy src dst n ++ [copyAt src dst n] := by
      simp [memcpy, List.range_succ]
    have hset : ((src t).take n ++ (dst.get t).drop n).set n (src t)[n] =
        (src t).take (n+1) ++ (dst.get t).drop (n+1) := by
      have hlt' : n < (dst.get t).length := hlength.symm ▸ hlt
      have htake : ((src t).take n).length = n := by rw [List.length_take, min_eq_left hlt.le]
      rw [List.set_append_right _ _ htake.le, htake, Nat.sub_self, List.drop_eq_getElem_cons hlt',
        List.set_cons_zero, List.take_succ_eq_append_getElem hlt, List.append_assoc]
      rfl
    rw [hcopy, Runs.run_concat, ih hlt.le, Option.bind_some, copyAt, hsrc, dst.get_set,
      List.getElem?_eq_getElem hlt, Option.map_some, hset, dst.set_set]

/-- Byte by byte, the whole region is copied. -/
theorem run_memcpy (hsrc : ∀ t m, src (dst.set t m) = src t) {t : τ} {n : ℕ}
    (hs : (src t).length = n) (hd : (dst.get t).length = n) :
    Runs.run (fun t f => f t) t (memcpy src dst n) = some (dst.set t (src t)) := by
  rw [run_memcpy_of_le src dst hsrc (hd.trans hs.symm) hs.ge, List.take_of_length_le hs.le,
    List.drop_of_length_le hd.le, List.append_nil]

end MemoryCopy
end SketchMonitor
