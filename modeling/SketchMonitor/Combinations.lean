import Mathlib.Data.List.Sort
import Mathlib.Data.Multiset.Sort
import Mathlib.Data.Prod.Lex
import Mathlib.SetTheory.Cardinal.Finite
import SketchMonitor.BetaGenerator

/-!
# What the generator enumerates

Ordered by length and then entry by entry, the combinations within the limit form a
finite set, and each call of `get_next` steps to the least one still to come. So the
calls run through all of them, each once, before they return false.
-/

namespace SketchMonitor
namespace BetaGenerator

/-- Length first, then the list. -/
def position (g : BetaGenerator) : ℕ ×ₗ List ℕ := toLex (g.nowFlowNum,g.nowResult)

def combinationsBelow (sum limit : ℕ) : Set (ℕ ×ₗ List ℕ) :=
  {x | IsCombination sum (ofLex x).2 ∧ (ofLex x).2.length = (ofLex x).1 ∧ (ofLex x).1 < limit}

theorem position_lt_iff (g : BetaGenerator) {sum limit : ℕ} {x : ℕ ×ₗ List ℕ}
    (hx : x ∈ combinationsBelow sum limit) : g.position < x ↔ g.Before (ofLex x).2 := by
  rw [Prod.Lex.lt_iff, Before, hx.2.1]
  rfl

theorem leastSteps_getNext {sum limit : ℕ} (hsum : 1 ≤ sum) (hlimit : 2 < limit) :
    Generator.LeastSteps getNext position
      (fun g => g.sum = sum ∧ g.flowNumLimit = limit ∧ g.Ready) (combinationsBelow sum limit) where
  keeps := by
    rintro g ⟨rfl,rfl,hg⟩ h
    have ht := (getNext_spec g hsum hlimit hg).1 h
    exact ⟨ht.sum,ht.limit,.found (ht.sum ▸ ht.combination) ht.length⟩
  least := by
    rintro g ⟨rfl,rfl,hg⟩ h
    have ht := (getNext_spec g hsum hlimit hg).1 h
    have hmem : g.getNext.1.position ∈ combinationsBelow g.sum g.flowNumLimit :=
      ⟨ht.combination,ht.length,ht.lt_limit⟩
    refine ⟨⟨hmem,(g.position_lt_iff hmem).mpr ht.later⟩,?_⟩
    rintro x ⟨hx,hlt⟩
    have hleast := ht.least _ hx.1 ((g.position_lt_iff hx).mp hlt)
    rw [hx.2.1] at hleast
    exact Prod.Lex.le_iff.mpr hleast
  none := by
    rintro g ⟨rfl,rfl,hg⟩ h x hx hlt
    exact (getNext_spec g hsum hlimit hg).2 h _ hx.1 (hx.2.1 ▸ hx.2.2)
      ((g.position_lt_iff hx).mp hlt)

section Finite

variable {sum limit : ℕ}

theorem IsCombination.le_sum {l : List ℕ} (h : IsCombination sum l) {x : ℕ} (hx : x ∈ l) : x ≤ sum :=
  h.sum_eq ▸ List.le_sum_of_mem hx

/-- The first six entries, zero where the list is shorter. -/
def entries (sum : ℕ) (x : ℕ ×ₗ List ℕ) (k : Fin 6) : Fin (sum + 1) :=
  Fin.ofNat (sum + 1) ((ofLex x).2.getD k 0)

theorem entries_val {l : List ℕ} (h : IsCombination sum l) (n : ℕ) (k : Fin 6) :
    (entries sum (toLex (n,l)) k : ℕ) = l.getD k 0 := by
  change l.getD k 0 % (sum + 1) = l.getD k 0
  refine Nat.mod_eq_of_lt (Nat.lt_succ_of_le ?_)
  rcases lt_or_ge (k : ℕ) l.length with hk | hk
  · rw [List.getD_eq_getElem _ _ hk]
    exact h.le_sum (List.getElem_mem hk)
  · rw [List.getD_eq_default _ _ hk]
    exact Nat.zero_le _

/-- Entries tell short lists of positive numbers apart. -/
theorem eq_of_getD_eq {l l' : List ℕ} {n : ℕ} (hlen : l.length ≤ n) (hlen' : l'.length ≤ n)
    (hl : ∀ x ∈ l, 1 ≤ x) (hl' : ∀ x ∈ l', 1 ≤ x) (h : ∀ k < n, l.getD k 0 = l'.getD k 0) :
    l = l' := by
  have hle {l l' : List ℕ} (hlen : l.length ≤ n) (hl : ∀ x ∈ l, 1 ≤ x)
      (h : ∀ k < n, l.getD k 0 = l'.getD k 0) : l.length ≤ l'.length := by
    by_contra hlt
    have hk : l'.length < l.length := by omega
    have heq := h l'.length (by omega)
    rw [List.getD_eq_getElem _ _ hk, List.getD_eq_default _ _ le_rfl] at heq
    have hpos := hl _ (List.getElem_mem hk)
    omega
  have heq : l.length = l'.length :=
    (hle hlen hl h).antisymm (hle hlen' hl' fun k hk => (h k hk).symm)
  refine List.ext_getElem heq fun k hk hk' => ?_
  have := h k (by omega)
  rwa [List.getD_eq_getElem _ _ hk, List.getD_eq_getElem _ _ hk'] at this

theorem entries_injOn (hlimit : limit ≤ 7) : Set.InjOn (entries sum) (combinationsBelow sum limit) := by
  intro x hx y hy heq
  have hlist : (ofLex x).2 = (ofLex y).2 := by
    refine eq_of_getD_eq (n := 6) (by have := hx.2; omega) (by have := hy.2; omega)
      hx.1.pos hy.1.pos fun k hk => ?_
    have := congrArg Fin.val (congrFun heq ⟨k,hk⟩)
    rwa [← toLex_ofLex x, ← toLex_ofLex y, ← Prod.mk.eta (p := ofLex x), ← Prod.mk.eta (p := ofLex y),
      entries_val hx.1, entries_val hy.1] at this
  have hlen : (ofLex x).1 = (ofLex y).1 := by rw [← hx.2.1, ← hy.2.1, hlist]
  exact congrArg toLex (Prod.ext hlen hlist)

theorem combinationsBelow_finite (hlimit : limit ≤ 7) : (combinationsBelow sum limit).Finite :=
  Set.Finite.of_injOn (Set.mapsTo_univ _ _) (entries_injOn hlimit) Set.finite_univ

theorem ncard_combinationsBelow_le (hlimit : limit ≤ 7) :
    (combinationsBelow sum limit).ncard ≤ (sum + 1)^6 := by
  have h := Set.ncard_le_ncard_of_injOn (t := Set.univ) (entries sum) (fun _ _ => Set.mem_univ _)
    (entries_injOn hlimit)
  simpa [Set.ncard_univ] using h

end Finite

theorem new_limit_bounds (sum : ℕ) : 2 < (new sum).flowNumLimit ∧ (new sum).flowNumLimit ≤ 7 := by
  simp only [new]
  split_ifs <;> omega

/-- The calls on a new generator run through the combinations in increasing order. -/
theorem drains_new {sum : ℕ} (hsum : 1 ≤ sum) :
    ∃ gs, Generator.Drains getNext (new sum) gs ∧ (gs.map position).Pairwise (· < ·) ∧
      ∀ x, x ∈ gs.map position ↔ x ∈ combinationsBelow sum (new sum).flowNumLimit := by
  obtain ⟨hlo,hhi⟩ := new_limit_bounds sum
  obtain ⟨gs,hgs,-,hsorted,hmem⟩ := (leastSteps_getNext hsum hlo).drains
    (combinationsBelow_finite hhi) (new sum) ⟨rfl,rfl,.fresh rfl rfl⟩
  refine ⟨gs,hgs,hsorted,fun x => (hmem x).trans (and_iff_left_of_imp fun hx => ?_)⟩
  exact ((new sum).position_lt_iff hx).mpr (Or.inl (hx.1.length_pos hsum))

theorem exists_position {gs : List BetaGenerator} {sum : ℕ} {l : List ℕ}
    (hmem : ∀ x, x ∈ gs.map position ↔ x ∈ combinationsBelow sum (new sum).flowNumLimit)
    (hl : IsCombination sum l) (hlen : l.length < (new sum).flowNumLimit) :
    ∃ g ∈ gs, g.nowResult = l := by
  have hx := (hmem (toLex (l.length,l))).mpr ⟨hl,rfl,hlen⟩
  obtain ⟨g,hg,hpos⟩ := List.mem_map.mp hx
  exact ⟨g,hg,congrArg (fun x => (ofLex x).2) hpos⟩

/-- The vectors of all calls of `get_next` that return true. There are at most
`(sum+1)^6`. -/
def combinations (sum : ℕ) : List (List ℕ) :=
  (Generator.collect getNext ((sum + 1)^6) (new sum)).map nowResult

/-- The calls behind `combinations` have ended with false. -/
theorem combinations_eq {sum : ℕ} {gs : List BetaGenerator} (hgs : Generator.Drains getNext (new sum) gs)
    (hsorted : (gs.map position).Pairwise (· < ·))
    (hmem : ∀ x, x ∈ gs.map position ↔ x ∈ combinationsBelow sum (new sum).flowNumLimit) :
    combinations sum = gs.map nowResult := by
  have hnodup : (gs.map position).Nodup := hsorted.imp fun h => h.ne
  have hset : combinationsBelow sum (new sum).flowNumLimit = ((gs.map position).toFinset : Set _) := by
    ext x
    simp [← hmem]
  have hcard : (combinationsBelow sum (new sum).flowNumLimit).ncard ≤ (sum + 1)^6 :=
    ncard_combinationsBelow_le (new_limit_bounds sum).2
  rw [hset, Set.ncard_coe_finset, List.toFinset_card_of_nodup hnodup, List.length_map] at hcard
  rw [combinations, hgs.collect_eq hcard]

theorem mem_combinations {sum : ℕ} (hsum : 1 ≤ sum) (l : List ℕ) :
    l ∈ combinations sum ↔ IsCombination sum l ∧ l.length < (new sum).flowNumLimit := by
  obtain ⟨gs,hgs,hsorted,hmem⟩ := drains_new hsum
  rw [combinations_eq hgs hsorted hmem]
  constructor
  · intro hl
    obtain ⟨g,hg,rfl⟩ := List.mem_map.mp hl
    have hpos := (hmem g.position).mp (List.mem_map_of_mem hg)
    exact ⟨hpos.1,hpos.2.1 ▸ hpos.2.2⟩
  · rintro ⟨hl,hlen⟩
    obtain ⟨g,hg,rfl⟩ := exists_position hmem hl hlen
    exact List.mem_map_of_mem hg

theorem nodup_combinations {sum : ℕ} (hsum : 1 ≤ sum) : (combinations sum).Nodup := by
  obtain ⟨gs,hgs,hsorted,hmem⟩ := drains_new hsum
  rw [combinations_eq hgs hsorted hmem]
  refine List.pairwise_map.mpr ((List.pairwise_map.mp hsorted).imp_of_mem ?_)
  intro g g' hg hg' hlt heq
  have hlen {g : BetaGenerator} (hg : g ∈ gs) : g.nowResult.length = g.nowFlowNum :=
    ((hmem g.position).mp (List.mem_map_of_mem hg)).2.1
  have hpos : g.position = g'.position := by rw [position, position, ← hlen hg, ← hlen hg', heq]
  exact absurd hpos hlt.ne

theorem singleton_mem_combinations {sum : ℕ} (hsum : 1 ≤ sum) : [sum] ∈ combinations sum :=
  (mem_combinations hsum _).mpr
    ⟨isCombination_singleton sum hsum,by have := (new_limit_bounds sum).1; simp; omega⟩

/-- Repeated calls return true once for each multiset of at most `flow_num_limit - 1`
positive integers with the given sum, in nondecreasing order, and then false. -/
theorem enumerates_partitions (sum : ℕ) (hsum : 1 ≤ sum) :
    ∃ gs, Generator.Drains getNext (new sum) gs ∧
      (∀ g ∈ gs, g.nowResult.length = g.nowFlowNum ∧ g.nowResult.Pairwise (· ≤ ·) ∧
        ∀ x ∈ g.nowResult, 1 ≤ x ∧ x ≤ sum) ∧
      (gs.map fun g => (g.nowResult : Multiset ℕ)).Nodup ∧
      ∀ m : Multiset ℕ, m ∈ gs.map (fun g => (g.nowResult : Multiset ℕ)) ↔
        1 ≤ m.card ∧ m.card ≤ (new sum).flowNumLimit - 1 ∧ (∀ x ∈ m, 0 < x) ∧ m.sum = sum := by
  obtain ⟨gs,hgs,hsorted,hmem⟩ := drains_new hsum
  have hlimit := (new_limit_bounds sum).1
  have hcomb (g) (hg : g ∈ gs) : IsCombination sum g.nowResult ∧
      g.nowResult.length = g.nowFlowNum ∧ g.nowFlowNum < (new sum).flowNumLimit :=
    (hmem g.position).mp (List.mem_map_of_mem hg)
  refine ⟨gs,hgs,fun g hg => ?_,?_,fun m => ⟨fun hm => ?_,?_⟩⟩
  · obtain ⟨hl,hlen,-⟩ := hcomb g hg
    exact ⟨hlen,hl.sorted,fun x hx => ⟨hl.pos x hx,hl.le_sum hx⟩⟩
  · refine List.pairwise_map.mpr ((List.pairwise_map.mp hsorted).imp_of_mem ?_)
    intro g g' hg hg' hlt heq
    -- both vectors are in order, so they are the same vector
    have hperm : g.nowResult.Perm g'.nowResult := Multiset.coe_eq_coe.mp heq
    have hsame := hperm.eq_of_pairwise' (hcomb g hg).1.sorted (hcomb g' hg').1.sorted
    have hpos : g.position = g'.position := by
      rw [position, position, ← (hcomb g hg).2.1, ← (hcomb g' hg').2.1, hsame]
    exact absurd hpos hlt.ne
  · obtain ⟨g,hg,rfl⟩ := List.mem_map.mp hm
    obtain ⟨hl,hlen,hlt⟩ := hcomb g hg
    have hpos := hl.length_pos hsum
    rw [Multiset.coe_card, Multiset.sum_coe]
    exact ⟨by omega,by omega,fun x hx => hl.pos x (Multiset.mem_coe.mp hx),hl.sum_eq⟩
  · rintro ⟨-,hcard,hpos,hsum'⟩
    have hl : IsCombination sum (m.sort (· ≤ ·)) := by
      refine ⟨m.pairwise_sort (· ≤ ·),fun x hx => hpos x ((Multiset.mem_sort _).mp hx),?_⟩
      rw [← Multiset.sum_coe, Multiset.sort_eq, hsum']
    obtain ⟨g,hg,heq⟩ := exists_position hmem hl (by rw [Multiset.length_sort]; omega)
    exact List.mem_map.mpr ⟨g,hg,by rw [heq, Multiset.sort_eq]⟩

theorem enumerates_partitions_of_four :
    ∃ gs, Generator.Drains getNext (new 4) gs ∧
      (∀ g ∈ gs, g.nowResult.length = g.nowFlowNum ∧ g.nowResult.Pairwise (· ≤ ·) ∧
        ∀ x ∈ g.nowResult, 1 ≤ x ∧ x ≤ 4) ∧
      (gs.map fun g => (g.nowResult : Multiset ℕ)).Nodup ∧
      ∀ m : Multiset ℕ, m ∈ gs.map (fun g => (g.nowResult : Multiset ℕ)) ↔
        1 ≤ m.card ∧ m.card ≤ (new 4).flowNumLimit - 1 ∧ (∀ x ∈ m, 0 < x) ∧ m.sum = 4 :=
  enumerates_partitions 4 (by decide)

end BetaGenerator
end SketchMonitor
