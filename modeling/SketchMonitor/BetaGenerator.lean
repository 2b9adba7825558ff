import Mathlib.Data.List.GetD
import SketchMonitor.Generator

/-!
# The generator of flow combinations

`EMFSD::BetaGenerator` lists the ways to write a counter value as a sum of flow
sizes. It keeps the current combination in a vector, raises one entry after the
other from the back until the rest of the sum fits, and starts over with one more
flow when no entry can be raised.
-/

namespace SketchMonitor

structure BetaGenerator where
  sum : ℕ
  nowFlowNum : ℕ
  flowNumLimit : ℕ
  nowResult : List ℕ
  deriving DecidableEq

namespace BetaGenerator

/-- The constructor. -/
def new (sum : ℕ) : BetaGenerator where
  sum := sum
  nowFlowNum := 0
  flowNumLimit := if sum > 600 then 3 else if sum > 300 then 4 else if sum > 50 then 5 else 7
  nowResult := []

/-- `vector::resize`. -/
def resize (r : List ℕ) (n : ℕ) : List ℕ := r.take n ++ List.replicate (n - r.length) 0

/-- Assign `t` at `len` indices from `lo` on. -/
def assign (r : List ℕ) (lo len t : ℕ) : List ℕ :=
  (List.range' lo len).foldl (fun r k => r.set k t) r

/-- The loop of `get_new_comb` over `j`, with `j` rounds to go. -/
def newCombLoop (g : BetaGenerator) : ℕ → BetaGenerator × Bool
  | 0 => (g,false)
  | j+1 =>
    let n := g.nowFlowNum
    let t := g.nowResult.getD j 0 + 1
    let r := assign (g.nowResult.set j t) (j+1) (n - 2 - j) t
    let partialSum := (r.take (n - 1)).sum
    let remain : ℤ := (g.sum : ℤ) - partialSum
    if remain ≥ r.getD (n - 2) 0 then
      ({ g with nowResult := r.set (n - 1) remain.toNat },true)
    else newCombLoop { g with nowResult := r } j

def getNewComb (g : BetaGenerator) : BetaGenerator × Bool := g.newCombLoop (g.nowFlowNum - 1)

/-- The entry to the search: from one flow to two, then `resize`. -/
def enterSearch (g : BetaGenerator) : BetaGenerator :=
  let g := if g.nowFlowNum = 1 then { g with nowFlowNum := 2, nowResult := g.nowResult.set 0 0 } else g
  { g with nowResult := resize g.nowResult g.nowFlowNum }

/-- After a failed search: one more flow, all ones before a sentinel. -/
def addFlow (g : BetaGenerator) : BetaGenerator :=
  let n := g.nowFlowNum + 1
  { g with nowFlowNum := n, nowResult := (assign g.nowResult 0 (n - 2) 1).set (n - 2) 0 }

@[simp] theorem newCombLoop_nowFlowNum (g : BetaGenerator) (j : ℕ) :
    (g.newCombLoop j).1.nowFlowNum = g.nowFlowNum := by
  induction j generalizing g with
  | zero => rfl
  | succ j ih =>
    simp only [newCombLoop]
    split_ifs
    · rfl
    · rw [ih]

@[simp] theorem newCombLoop_flowNumLimit (g : BetaGenerator) (j : ℕ) :
    (g.newCombLoop j).1.flowNumLimit = g.flowNumLimit := by
  induction j generalizing g with
  | zero => rfl
  | succ j ih =>
    simp only [newCombLoop]
    split_ifs
    · rfl
    · rw [ih]

theorem le_enterSearch_nowFlowNum (g : BetaGenerator) :
    g.nowFlowNum ≤ g.enterSearch.nowFlowNum := by
  unfold enterSearch
  split_ifs with h
  · simp [h]
  · exact le_rfl

@[simp] theorem enterSearch_flowNumLimit (g : BetaGenerator) :
    g.enterSearch.flowNumLimit = g.flowNumLimit := by
  unfold enterSearch
  split_ifs <;> rfl

/-- `get_next`: the rounds of its loop until one returns. -/
def getNext (g : BetaGenerator) : BetaGenerator × Bool :=
  if g.nowFlowNum < g.flowNumLimit then
    if g.nowFlowNum = 0 then
      ({ g with nowFlowNum := 1, nowResult := (resize g.nowResult 1).set 0 g.sum },true)
    else
      let c := g.enterSearch.getNewComb
      if c.2 then c else getNext c.1.addFlow
  else (g,false)
termination_by g.flowNumLimit - g.nowFlowNum
decreasing_by
  have h := g.le_enterSearch_nowFlowNum
  simp only [addFlow, getNewComb, newCombLoop_flowNumLimit, newCombLoop_nowFlowNum,
    enterSearch_flowNumLimit]
  omega

theorem assign_append (u v w : List ℕ) (t : ℕ) :
    assign (u ++ v ++ w) u.length v.length t = u ++ List.replicate v.length t ++ w := by
  induction v generalizing u with
  | nil => simp [assign]
  | cons b v ih =>
    have hset : (u ++ b :: v ++ w).set u.length t = u ++ [t] ++ v ++ w := by simp
    have hrest := ih (u ++ [t])
    rw [List.length_append, List.length_singleton] at hrest
    rw [assign, List.length_cons, List.range'_succ, List.foldl_cons, hset, ← assign, hrest]
    simp [List.replicate_succ]

/-- The rest of the sum is at least the raised entry `a + 1`, put in place of `a` and of
the `k` entries after it. -/
def Room (sum : ℕ) (u : List ℕ) (a k : ℕ) : Prop := u.sum + (k + 2) * (a + 1) ≤ sum

instance (sum : ℕ) (u : List ℕ) (a k : ℕ) : Decidable (Room sum u a k) :=
  inferInstanceAs (Decidable (_ ≤ _))

/-- The entries up to the last after raising `a` behind `u`. -/
def raised (u : List ℕ) (a k : ℕ) : List ℕ := u ++ List.replicate (k + 1) (a + 1)

/-- The combination found by raising `a` behind `u`. -/
def raise (sum : ℕ) (u : List ℕ) (a k : ℕ) : List ℕ := raised u a k ++ [sum - (raised u a k).sum]

@[simp] theorem raised_length (u : List ℕ) (a k : ℕ) : (raised u a k).length = u.length + k + 1 := by
  simp [raised, add_assoc]

@[simp] theorem raised_sum (u : List ℕ) (a k : ℕ) :
    (raised u a k).sum = u.sum + (k + 1) * (a + 1) := by
  simp [raised]

theorem newCombLoop_succ (g : BetaGenerator) (u v : List ℕ) (a x : ℕ)
    (hr : g.nowResult = u ++ a :: v ++ [x]) (hn : g.nowFlowNum = u.length + v.length + 2) :
    g.newCombLoop (u.length + 1) =
      if Room g.sum u a v.length then ({ g with nowResult := raise g.sum u a v.length },true)
      else newCombLoop { g with nowResult := raised u a v.length ++ [x] } u.length := by
  have hget : g.nowResult.getD u.length 0 = a := by simp [hr]
  have hassign : assign (g.nowResult.set u.length (a + 1)) (u.length + 1)
      (g.nowFlowNum - 2 - u.length) (a + 1) = raised u a v.length ++ [x] := by
    have hset : g.nowResult.set u.length (a + 1) = u ++ [a + 1] ++ v ++ [x] := by simp [hr]
    have hlen : g.nowFlowNum - 2 - u.length = v.length := by omega
    have h := assign_append (u ++ [a + 1]) v [x] (a + 1)
    rw [List.length_append, List.length_singleton] at h
    rw [hset, hlen, h]
    simp [raised, List.replicate_succ]
  have htake : (raised u a v.length ++ [x]).take (g.nowFlowNum - 1) = raised u a v.length := by
    rw [List.take_append_of_le_length (by simp; omega), List.take_of_length_le (by simp; omega)]
  have hlast : (raised u a v.length ++ [x]).getD (g.nowFlowNum - 2) 0 = a + 1 := by
    rw [List.getD_append _ _ _ _ (by simp; omega), raised, List.getD_append_right _ _ _ _ (by omega)]
    simp [hn]
  have hset : ∀ y, (raised u a v.length ++ [x]).set (g.nowFlowNum - 1) y =
      raised u a v.length ++ [y] := by
    intro y
    rw [List.set_append_right _ _ (by simp; omega)]
    simp [hn]
  have hroom : ((g.sum : ℤ) - ((raised u a v.length).sum : ℕ) ≥ ((a + 1 : ℕ) : ℤ)) ↔
      Room g.sum u a v.length := by
    have hexpand : (v.length + 2) * (a + 1) = (v.length + 1) * (a + 1) + (a + 1) := by ring
    rw [raised_sum, Room, hexpand]
    omega
  simp only [newCombLoop, hget, hassign, htake, hlast, hroom, hset]
  congr 1
  rw [raise]
  congr 5
  omega

theorem eq_append_cons_of_concat {u u₂ v₂ : List ℕ} {a b : ℕ} (h : u ++ [a] = u₂ ++ b :: v₂) :
    (u₂ = u ∧ b = a ∧ v₂ = []) ∨ ∃ v, v₂ = v ++ [a] ∧ u = u₂ ++ b :: v := by
  rcases List.eq_nil_or_concat v₂ with rfl | ⟨v,c,rfl⟩
  · obtain ⟨hu,ha⟩ := List.append_inj' h rfl
    exact Or.inl ⟨hu.symm,(List.singleton_inj.mp ha).symm,rfl⟩
  · rw [List.concat_eq_append, ← List.cons_append, ← List.append_assoc] at h
    obtain ⟨hu,ha⟩ := List.append_inj' h rfl
    exact Or.inr ⟨v,by rw [List.concat_eq_append, List.singleton_inj.mp ha],hu⟩

/-- What the loop finds: the last entry that can be raised, or that there is none. -/
theorem newCombLoop_spec (g : BetaGenerator) (u w : List ℕ) (x : ℕ)
    (hr : g.nowResult = u ++ w ++ [x]) (hn : g.nowFlowNum = u.length + w.length + 1) :
    (∃ u₁ a v, u = u₁ ++ a :: v ∧ Room g.sum u₁ a (v.length + w.length) ∧
      (∀ u₂ b v₂, u = u₂ ++ b :: v₂ → u₁.length < u₂.length →
        ¬ Room g.sum u₂ b (v₂.length + w.length)) ∧
      g.newCombLoop u.length =
        ({ g with nowResult := raise g.sum u₁ a (v.length + w.length) },true)) ∨
    ((∀ u₂ b v₂, u = u₂ ++ b :: v₂ → ¬ Room g.sum u₂ b (v₂.length + w.length)) ∧
      ∃ r, r.length = g.nowFlowNum ∧ g.newCombLoop u.length = ({ g with nowResult := r },false)) := by
  induction u using List.reverseRecOn generalizing g w with
  | nil =>
    refine Or.inr ⟨fun u₂ b v₂ h => absurd h (by simp),g.nowResult,?_,rfl⟩
    rw [hr, hn]
    simp
  | append_singleton u a ih =>
    have hr' : g.nowResult = u ++ a :: w ++ [x] := by simp [hr]
    have hn' : g.nowFlowNum = u.length + w.length + 2 := by
      rw [hn, List.length_append, List.length_singleton]
      omega
    have hstep := newCombLoop_succ g u w a x hr' hn'
    rw [List.length_append, List.length_singleton, hstep]
    by_cases hroom : Room g.sum u a w.length
    · refine Or.inl ⟨u,a,[],rfl,by simpa using hroom,fun u₂ b v₂ h hlt => ?_,by simp [hroom]⟩
      have hlen := congrArg List.length h
      simp at hlen
      omega
    · rw [if_neg hroom]
      -- the entry just raised without success now lies behind the entries still to try
      have hadd (v : List ℕ) : v.length + (List.replicate (w.length + 1) (a + 1)).length =
          (v ++ [a]).length + w.length := by
        rw [List.length_replicate, List.length_append, List.length_singleton]
        omega
      have hlong (u₂ v₂ : List ℕ) (b : ℕ) (h : u ++ [a] = u₂ ++ b :: v₂)
          (hrest : ∀ v, u = u₂ ++ b :: v →
            ¬ Room g.sum u₂ b (v.length + (List.replicate (w.length + 1) (a + 1)).length)) :
          ¬ Room g.sum u₂ b (v₂.length + w.length) := by
        rcases eq_append_cons_of_concat h with ⟨rfl,rfl,rfl⟩ | ⟨v,rfl,hu⟩
        · simpa using hroom
        · rw [← hadd]
          exact hrest v hu
      rcases ih { g with nowResult := raised u a w.length ++ [x] } (List.replicate (w.length + 1) (a + 1))
        rfl (by simp only [List.length_replicate]; omega) with
        ⟨u₁,b,v,hu,hfits,hbefore,hloop⟩ | ⟨hnone,r,hlen,hloop⟩
      · rw [hadd] at hfits hloop
        refine Or.inl ⟨u₁,b,v ++ [a],by simp [hu],hfits,fun u₂ b₂ v₂ h hlt => ?_,hloop⟩
        exact hlong u₂ v₂ b₂ h fun v' hv' => hbefore u₂ b₂ v' hv' hlt
      · exact Or.inr ⟨fun u₂ b₂ v₂ h => hlong u₂ v₂ b₂ h fun v' hv' => hnone u₂ b₂ v' hv',
          r,hlen,hloop⟩

/-- A way to write the sum as positive parts, in nondecreasing order. -/
structure IsCombination (sum : ℕ) (l : List ℕ) : Prop where
  sorted : l.Pairwise (· ≤ ·)
  pos : ∀ x ∈ l, 1 ≤ x
  sum_eq : l.sum = sum

theorem IsCombination.length_pos {sum : ℕ} {l : List ℕ} (h : IsCombination sum l) (hsum : 1 ≤ sum) :
    0 < l.length := by
  refine List.length_pos_iff.mpr fun hnil => ?_
  have hempty := h.sum_eq
  rw [hnil, List.sum_nil] at hempty
  omega

/-- The only combination of one flow is the sum itself. -/
theorem IsCombination.eq_singleton {sum : ℕ} {l : List ℕ} (h : IsCombination sum l)
    (hlen : l.length = 1) : l = [sum] := by
  obtain ⟨c,rfl⟩ := List.length_eq_one_iff.mp hlen
  rw [← h.sum_eq, List.sum_singleton]

theorem exists_split_of_lt {l₁ l₂ : List ℕ} (hlen : l₁.length = l₂.length) (h : l₁ < l₂) :
    ∃ u a v b w, l₁ = u ++ a :: v ∧ l₂ = u ++ b :: w ∧ a < b := by
  induction h with
  | nil => simp at hlen
  | rel hab => exact ⟨[],_,_,_,_,rfl,rfl,hab⟩
  | cons h ih =>
    obtain ⟨u,a,v,b,w,rfl,rfl,hab⟩ := ih (by simpa using hlen)
    exact ⟨_ :: u,a,v,b,w,rfl,rfl,hab⟩

theorem append_cons_lt (u : List ℕ) {a b : ℕ} (v w : List ℕ) (h : a < b) :
    u ++ a :: v < u ++ b :: w := by
  induction u with
  | nil => exact List.Lex.rel h
  | cons c u ih => exact List.Lex.cons ih

theorem append_le_append (u : List ℕ) {v w : List ℕ} (h : v ≤ w) : u ++ v ≤ u ++ w := by
  induction u with
  | nil => exact h
  | cons c u ih => exact List.cons_le_cons c ih

/-- Among lists of one length and sum with entries from `t` on, the one that repeats `t`
comes first. -/
theorem replicate_append_le (t : ℕ) (k r : ℕ) (z : List ℕ) (hlen : z.length = k + 1)
    (hz : ∀ x ∈ z, t ≤ x) (hsum : z.sum = k * t + r) : List.replicate k t ++ [r] ≤ z := by
  induction k generalizing z with
  | zero =>
    obtain ⟨c,rfl⟩ := List.length_eq_one_iff.mp hlen
    simp at hsum
    simp [hsum]
  | succ k ih =>
    obtain ⟨c,z,rfl⟩ := List.exists_cons_of_length_eq_add_one hlen
    rcases (hz c (by simp)).eq_or_lt with rfl | hlt
    · refine List.cons_le_cons t (ih z (by simpa using hlen) (fun x hx => hz x (by simp [hx])) ?_)
      rw [List.sum_cons, Nat.succ_mul] at hsum
      omega
    · exact (append_cons_lt [] (List.replicate k t ++ [r]) z hlt).le

theorem IsCombination.le_of_mem_tail {sum b x : ℕ} {u w : List ℕ}
    (h : IsCombination sum (u ++ b :: w)) (hx : x ∈ b :: w) : b ≤ x := by
  have hsorted := (List.pairwise_append.mp h.sorted).2.1
  rcases List.mem_cons.mp hx with rfl | hx
  · exact le_rfl
  · exact List.rel_of_pairwise_cons hsorted hx

theorem room_of_isCombination {sum a b k : ℕ} {u w : List ℕ} (h : IsCombination sum (u ++ b :: w))
    (hab : a < b) (hw : w.length = k + 1) : Room sum u a k := by
  have hle := List.card_nsmul_le_sum (b :: w) (a + 1) fun x hx => hab.trans_le (h.le_of_mem_tail hx)
  have hsum := h.sum_eq
  rw [List.sum_append] at hsum
  rw [List.length_cons, hw, smul_eq_mul] at hle
  change u.sum + (k + 1 + 1) * (a + 1) ≤ sum
  omega

theorem Room.isCombination {sum a k : ℕ} {u : List ℕ} (h : Room sum u a k)
    (hsorted : u.Pairwise (· ≤ ·)) (hu : ∀ b ∈ u, 1 ≤ b ∧ b ≤ a + 1) :
    IsCombination sum (raise sum u a k) := by
  have hsum : (k + 2) * (a + 1) = (k + 1) * (a + 1) + (a + 1) := by ring
  rw [Room, hsum] at h
  have hrest : a + 1 ≤ sum - (raised u a k).sum := by
    rw [raised_sum]
    omega
  have hraised : ∀ b ∈ raised u a k, 1 ≤ b ∧ b ≤ a + 1 := by
    intro b hb
    rcases List.mem_append.mp hb with hb | hb
    · exact hu b hb
    · rw [List.eq_of_mem_replicate hb]
      omega
  constructor
  · refine List.pairwise_append.mpr ⟨List.pairwise_append.mpr ⟨hsorted,?_,?_⟩,?_,?_⟩
    · exact List.pairwise_replicate.mpr (Or.inr le_rfl)
    · intro b hb c hc
      rw [List.eq_of_mem_replicate hc]
      exact (hu b hb).2
    · exact List.pairwise_singleton _ _
    · intro b hb c hc
      rw [List.mem_singleton.mp hc]
      exact (hraised b hb).2.trans hrest
  · intro b hb
    rcases List.mem_append.mp hb with hb | hb
    · exact (hraised b hb).1
    · rw [List.mem_singleton.mp hb]
      omega
  · rw [raise, List.sum_append, List.sum_singleton, raised_sum]
    omega

theorem lt_raise (sum : ℕ) (u v : List ℕ) (a k : ℕ) : u ++ a :: v < raise sum u a k := by
  rw [raise, raised, List.replicate_succ, List.append_assoc]
  exact append_cons_lt u _ _ (Nat.lt_succ_self a)

theorem raise_le {sum a b k : ℕ} {u w : List ℕ} (h : IsCombination sum (u ++ b :: w)) (hab : a < b)
    (hw : w.length = k + 1) : raise sum u a k ≤ u ++ b :: w := by
  have hroom := room_of_isCombination h hab hw
  have hsum := h.sum_eq
  rw [List.sum_append] at hsum
  have hexpand : (k + 2) * (a + 1) = (k + 1) * (a + 1) + (a + 1) := by ring
  rw [Room, hexpand] at hroom
  rw [raise, raised_sum, raised, List.append_assoc]
  refine append_le_append u (replicate_append_le (a + 1) (k + 1) _ (b :: w) (by simp [hw])
    (fun x hx => hab.trans_le (h.le_of_mem_tail hx)) ?_)
  omega

/-- The search stands at the entries `p` before the last entry `x`. They are in order, but
for a lower last one in a new search, and no combination extends them beyond `x`. -/
structure StandsAt (g : BetaGenerator) (p : List ℕ) (x : ℕ) : Prop where
  flows : g.nowFlowNum = p.length + 1
  result : g.nowResult = p ++ [x]
  raisable : ∀ u a v, p = u ++ a :: v → u.Pairwise (· ≤ ·) ∧ ∀ b ∈ u, 1 ≤ b ∧ b ≤ a + 1
  last : ∀ y, IsCombination g.sum (p ++ [y]) → y ≤ x

variable {g : BetaGenerator} {p : List ℕ} {x : ℕ}

/-- A later combination of the same length raises one of the entries. -/
theorem StandsAt.exists_room (h : g.StandsAt p x) {l : List ℕ} (hl : IsCombination g.sum l)
    (hlen : l.length = g.nowFlowNum) (hlt : g.nowResult < l) :
    ∃ u a v b w, p = u ++ a :: v ∧ l = u ++ b :: w ∧ a < b ∧ w.length = v.length + 1 := by
  rw [h.flows] at hlen
  rw [h.result] at hlt
  obtain ⟨u,a,v,b,w,hp,rfl,hab⟩ := exists_split_of_lt (by simpa using hlen.symm) hlt
  rcases eq_append_cons_of_concat hp with ⟨rfl,rfl,rfl⟩ | ⟨v,rfl,rfl⟩
  · obtain rfl : w = [] := by
      rw [List.length_append, List.length_cons] at hlen
      exact List.length_eq_zero_iff.mp (by omega)
    exact absurd (h.last b hl) (not_le.mpr hab)
  · refine ⟨u,a,v,b,w,rfl,rfl,hab,?_⟩
    simp only [List.length_append, List.length_cons] at hlen
    omega

/-- A search that succeeds finds the next combination of its length. -/
theorem StandsAt.getNewComb_true (h : g.StandsAt p x) (hc : g.getNewComb.2 = true) :
    ∃ l, g.getNewComb.1 = { g with nowResult := l } ∧ IsCombination g.sum l ∧
      l.length = g.nowFlowNum ∧ g.nowResult < l ∧
      ∀ l', IsCombination g.sum l' → l'.length = g.nowFlowNum → g.nowResult < l' → l ≤ l' := by
  have hloop : g.getNewComb = g.newCombLoop p.length := by rw [getNewComb, h.flows, Nat.add_sub_cancel]
  rcases g.newCombLoop_spec p [] x (by simpa using h.result) (by simpa using h.flows) with
    ⟨u,a,v,hp,hroom,hbefore,heq⟩ | ⟨-,r,-,heq⟩
  · simp only [List.length_nil, Nat.add_zero] at hroom hbefore heq
    obtain ⟨hsorted,hu⟩ := h.raisable u a v hp
    refine ⟨raise g.sum u a v.length,by rw [hloop, heq],hroom.isCombination hsorted hu,?_,?_,?_⟩
    · rw [raise, List.length_append, raised_length, List.length_singleton, h.flows, hp]
      simp only [List.length_append, List.length_cons]
      omega
    · rw [h.result, hp, List.append_assoc, List.cons_append]
      exact lt_raise _ _ _ _ _
    · intro l' hl' hlen hlt
      obtain ⟨u',a',v',b,w,hp',rfl,hab,hw⟩ := h.exists_room hl' hlen hlt
      have hroom' := room_of_isCombination hl' hab hw
      have hle : u'.length ≤ u.length := not_lt.mp fun hlonger => hbefore u' a' v' hp' hlonger hroom'
      rcases List.append_eq_append_iff.mp (hp.symm.trans hp') with ⟨c,rfl,hc'⟩ | ⟨c,rfl,hc'⟩
      · obtain rfl : c = [] := by
          rw [List.length_append] at hle
          exact List.length_eq_zero_iff.mp (by omega)
        obtain ⟨rfl,rfl⟩ := List.cons_eq_cons.mp hc'
        simpa using raise_le hl' hab hw
      · cases c with
        | nil =>
          obtain ⟨rfl,rfl⟩ := List.cons_eq_cons.mp hc'
          simpa using raise_le hl' hab hw
        | cons c cs =>
          -- the other combination raises an earlier entry
          obtain ⟨rfl,-⟩ := List.cons_eq_cons.mp hc'
          rw [raise, raised, List.append_assoc, List.append_assoc, List.cons_append]
          exact (append_cons_lt u' _ _ hab).le
  · rw [hloop, heq] at hc
    exact absurd hc (by simp)

/-- A search that fails has passed all combinations of its length. -/
theorem StandsAt.getNewComb_false (h : g.StandsAt p x) (hc : g.getNewComb.2 = false) :
    (∀ l, IsCombination g.sum l → l.length = g.nowFlowNum → ¬ g.nowResult < l) ∧
      ∃ r, r.length = g.nowFlowNum ∧ g.getNewComb.1 = { g with nowResult := r } := by
  have hloop : g.getNewComb = g.newCombLoop p.length := by rw [getNewComb, h.flows, Nat.add_sub_cancel]
  rcases g.newCombLoop_spec p [] x (by simpa using h.result) (by simpa using h.flows) with
    ⟨u,a,v,-,-,-,heq⟩ | ⟨hnone,r,hlen,heq⟩
  · rw [hloop, heq] at hc
    exact absurd hc (by simp)
  · refine ⟨fun l hl hlen' hlt => ?_,r,hlen,by rw [hloop, heq]⟩
    obtain ⟨u,a,v,b,w,hp,rfl,hab,hw⟩ := h.exists_room hl hlen' hlt
    exact hnone u a v hp (by simpa using room_of_isCombination hl hab hw)

/-- Between two rounds of the loop: nothing found yet, a combination, or the sentinel of a
new search. -/
inductive Ready (g : BetaGenerator) : Prop
  | fresh (hn : g.nowFlowNum = 0) (hr : g.nowResult = [])
  | found (hl : IsCombination g.sum g.nowResult) (hlen : g.nowResult.length = g.nowFlowNum)
  | started (k : ℕ) (hn : g.nowFlowNum = k + 2) (hr : g.nowResult = List.replicate k 1 ++ [0])

/-- The list comes after the current one: longer, or as long and later in order. -/
def Before (g : BetaGenerator) (l : List ℕ) : Prop :=
  g.nowFlowNum < l.length ∨ g.nowFlowNum = l.length ∧ g.nowResult < l

theorem sentinel_lt (k : ℕ) (w l : List ℕ) (hl : ∀ x ∈ l, 1 ≤ x) (hlen : k + 1 ≤ l.length) :
    List.replicate k 1 ++ 0 :: w < l := by
  induction k generalizing l with
  | zero =>
    obtain ⟨c,l,rfl⟩ := List.exists_cons_of_length_pos (by omega : 0 < l.length)
    exact append_cons_lt [] w l (hl c (by simp))
  | succ k ih =>
    obtain ⟨c,l,rfl⟩ := List.exists_cons_of_length_pos (by omega : 0 < l.length)
    rcases (hl c (by simp)).eq_or_lt with rfl | hlt
    · exact List.Lex.cons (ih l (fun x hx => hl x (by simp [hx])) (by simpa using hlen))
    · exact append_cons_lt [] (List.replicate k 1 ++ 0 :: w) l hlt

theorem standsAt_sentinel (k : ℕ) (hn : g.nowFlowNum = k + 2)
    (hr : g.nowResult = List.replicate k 1 ++ [0] ++ [0]) :
    g.StandsAt (List.replicate k 1 ++ [0]) 0 where
  flows := by simp [hn]
  result := hr
  raisable u a v h := by
    have hu : ∀ b ∈ u, b = 1 := by
      intro b hb
      rcases eq_append_cons_of_concat h with ⟨rfl,-,-⟩ | ⟨v,-,hv⟩
      · exact List.eq_of_mem_replicate hb
      · exact List.eq_of_mem_replicate (hv ▸ List.mem_append_left _ hb)
    have hrep : u = List.replicate u.length 1 := List.eq_replicate_of_mem hu
    refine ⟨?_,fun b hb => ?_⟩
    · rw [hrep]
      exact List.pairwise_replicate.mpr (Or.inr le_rfl)
    · rw [hu b hb]
      omega
  last y hy := absurd (hy.pos 0 (by simp)) (by omega)

theorem resize_of_length {r : List ℕ} {n : ℕ} (h : r.length = n) : resize r n = r := by
  simp [resize, h]

theorem IsCombination.standsAt (hl : IsCombination g.sum g.nowResult)
    (hlen : g.nowResult.length = g.nowFlowNum) (hn : g.nowFlowNum ≠ 0) : ∃ p x, g.StandsAt p x := by
  rcases List.eq_nil_or_concat g.nowResult with hnil | ⟨p,x,hp⟩
  · rw [hnil] at hlen
    exact absurd hlen.symm hn
  · rw [List.concat_eq_append] at hp
    rw [hp] at hl hlen
    refine ⟨p,x,by simpa using hlen.symm,hp,?_,?_⟩
    · rintro u a v rfl
      have hsorted := (List.pairwise_append.mp hl.sorted).1
      refine ⟨(List.pairwise_append.mp hsorted).1,fun b hb => ⟨hl.pos b (by simp [hb]),?_⟩⟩
      exact ((List.pairwise_append.mp hsorted).2.2 b hb a (by simp)).trans (Nat.le_succ a)
    · intro y hy
      have h₁ := hl.sum_eq
      have h₂ := hy.sum_eq
      rw [List.sum_append, List.sum_singleton] at h₁ h₂
      omega

/-- Entering the search leaves the same combinations to come. -/
theorem Ready.enterSearch (hg : g.Ready) (hn : g.nowFlowNum ≠ 0) :
    (∃ p x, g.enterSearch.StandsAt p x) ∧
      ∀ l, IsCombination g.sum l → (g.Before l ↔ g.enterSearch.Before l) := by
  cases hg with
  | fresh hzero hr => exact absurd hzero hn
  | found hl hlen =>
    by_cases hone : g.nowFlowNum = 1
    · -- from one flow to two
      obtain ⟨c,hc⟩ := List.length_eq_one_iff.mp (hlen.trans hone)
      have henter : g.enterSearch = { g with nowFlowNum := 2, nowResult := [0,0] } := by
        simp [BetaGenerator.enterSearch, hone, hc, resize]
      rw [henter]
      refine ⟨⟨_,_,standsAt_sentinel 0 rfl rfl⟩,fun l hcomb => ?_⟩
      simp only [Before, hone, hc]
      constructor
      · rintro (hlt | ⟨hlen',hlt⟩)
        · rcases Nat.lt_or_ge 2 l.length with h | h
          · exact Or.inl h
          · exact Or.inr ⟨by omega,sentinel_lt 0 [0] l hcomb.pos (by omega)⟩
        · rw [← hc, hl.eq_singleton (hlen.trans hone), hcomb.eq_singleton hlen'.symm] at hlt
          exact absurd hlt (lt_irrefl _)
      · rintro (hlt | ⟨hlen',-⟩) <;> exact Or.inl (by omega)
    · have henter : g.enterSearch = g := by
        simp [BetaGenerator.enterSearch, hone, resize_of_length hlen]
      rw [henter]
      exact ⟨hl.standsAt hlen hn,fun _ _ => Iff.rfl⟩
  | started k hk hr =>
    have hone : g.nowFlowNum ≠ 1 := by omega
    have henter : g.enterSearch = { g with nowResult := List.replicate k 1 ++ [0] ++ [0] } := by
      simp only [BetaGenerator.enterSearch, if_neg hone]
      rw [hr, resize, hk, List.take_of_length_le (by simp)]
      simp
    rw [henter]
    refine ⟨⟨_,_,standsAt_sentinel k hk rfl⟩,fun l hcomb => ?_⟩
    simp only [Before, hk, hr]
    refine or_congr_right (and_congr_right fun hlen => iff_of_true ?_ ?_)
    · exact sentinel_lt k [] l hcomb.pos (by omega)
    · rw [List.append_assoc]
      exact sentinel_lt k [0] l hcomb.pos (by omega)

/-- After a failed search all later combinations are longer. -/
theorem addFlow_spec (r : List ℕ) (hr : r.length = g.nowFlowNum) (hn : 1 ≤ g.nowFlowNum) :
    let g' := { g with nowResult := r }.addFlow
    g'.sum = g.sum ∧ g'.flowNumLimit = g.flowNumLimit ∧ g'.nowFlowNum = g.nowFlowNum + 1 ∧ g'.Ready ∧
      ∀ l, IsCombination g.sum l → (g'.Before l ↔ g.nowFlowNum < l.length) := by
  obtain ⟨k,hk⟩ : ∃ k, g.nowFlowNum = k + 1 := ⟨g.nowFlowNum - 1,by omega⟩
  obtain ⟨v,y,rfl⟩ : ∃ v y, r = v ++ [y] := by
    rcases List.eq_nil_or_concat r with rfl | ⟨v,y,rfl⟩
    · simp [hk] at hr
    · exact ⟨v,y,List.concat_eq_append⟩
  have hv : v.length = k := by
    rw [hk] at hr
    simpa using hr
  have hassign := assign_append [] v [y] 1
  simp only [List.nil_append, List.length_nil, hv] at hassign
  have hresult : ({ g with nowResult := v ++ [y] }.addFlow).nowResult = List.replicate k 1 ++ [0] := by
    have hindex : k + 1 + 1 - 2 = k := by omega
    simp only [addFlow, hk, hindex, hassign]
    rw [List.set_append_right _ _ (by simp)]
    simp
  refine ⟨rfl,rfl,rfl,.started k (by simp only [addFlow, hk]) hresult,fun l hcomb => ?_⟩
  rw [Before, hresult]
  change g.nowFlowNum + 1 < l.length ∨ g.nowFlowNum + 1 = l.length ∧ _ ↔ _
  constructor
  · rintro (hlt | ⟨hlen,-⟩) <;> omega
  · intro hlt
    rcases Nat.lt_or_ge (g.nowFlowNum + 1) l.length with h | h
    · exact Or.inl h
    · exact Or.inr ⟨by omega,sentinel_lt k [] l hcomb.pos (by omega)⟩

/-- The call has moved from `g` to `t`, the next combination within the limit. -/
structure Found (g t : BetaGenerator) : Prop where
  sum : t.sum = g.sum
  limit : t.flowNumLimit = g.flowNumLimit
  combination : IsCombination g.sum t.nowResult
  length : t.nowResult.length = t.nowFlowNum
  lt_limit : t.nowFlowNum < g.flowNumLimit
  later : g.Before t.nowResult
  least : ∀ l, IsCombination g.sum l → g.Before l →
    t.nowFlowNum < l.length ∨ t.nowFlowNum = l.length ∧ t.nowResult ≤ l

theorem isCombination_singleton (sum : ℕ) (h : 1 ≤ sum) : IsCombination sum [sum] where
  sorted := List.pairwise_singleton _ _
  pos _ hx := (List.mem_singleton.mp hx) ▸ h
  sum_eq := List.sum_singleton

/-- The first call finds the sum itself. -/
theorem found_single (hsum : 1 ≤ g.sum) (hlt : 1 < g.flowNumLimit) (hn : g.nowFlowNum = 0) :
    Found g { g with nowFlowNum := 1, nowResult := [g.sum] } where
  sum := rfl
  limit := rfl
  combination := isCombination_singleton g.sum hsum
  length := rfl
  lt_limit := hlt
  later := Or.inl (by simp [hn])
  least l hl _ := by
    rcases Nat.lt_or_ge 1 l.length with h | h
    · exact Or.inl h
    · have hpos := hl.length_pos hsum
      have hlen : l.length = 1 := by omega
      exact Or.inr ⟨hlen.symm,(hl.eq_singleton hlen).ge⟩

theorem enterSearch_sum (g : BetaGenerator) : g.enterSearch.sum = g.sum := by
  unfold enterSearch
  split_ifs <;> rfl

theorem enterSearch_nowFlowNum (g : BetaGenerator) :
    g.enterSearch.nowFlowNum = if g.nowFlowNum = 1 then 2 else g.nowFlowNum := by
  unfold enterSearch
  split_ifs <;> rfl

/-- A successful search after entering it. -/
theorem StandsAt.found (hp : g.enterSearch.StandsAt p x)
    (hbefore : ∀ l, IsCombination g.sum l → (g.Before l ↔ g.enterSearch.Before l))
    (hc : g.enterSearch.getNewComb.2 = true) (hlt : g.enterSearch.nowFlowNum < g.flowNumLimit) :
    Found g g.enterSearch.getNewComb.1 := by
  obtain ⟨l,hl,hcomb,hlen,hlater,hleast⟩ := hp.getNewComb_true hc
  rw [enterSearch_sum] at hcomb hleast
  rw [hl]
  refine ⟨g.enterSearch_sum,g.enterSearch_flowNumLimit,hcomb,hlen,hlt,?_,fun l' hl' hlater' => ?_⟩
  · exact (hbefore l hcomb).mpr (Or.inr ⟨hlen.symm,hlater⟩)
  · rcases (hbefore l' hl').mp hlater' with h | ⟨hlen',h⟩
    · exact Or.inl h
    · exact Or.inr ⟨hlen',hleast l' hl' hlen'.symm h⟩

/-- The next combination depends only on which ones are still to come. -/
theorem Found.of_before {g g' t : BetaGenerator} (h : Found g' t) (hs : g'.sum = g.sum)
    (hl : g'.flowNumLimit = g.flowNumLimit)
    (hrest : ∀ l, IsCombination g.sum l → (g.Before l ↔ g'.Before l)) : Found g t where
  sum := h.sum.trans hs
  limit := h.limit.trans hl
  combination := hs ▸ h.combination
  length := h.length
  lt_limit := hl ▸ h.lt_limit
  later := (hrest _ (hs ▸ h.combination)).mpr h.later
  least l hcomb hlater := h.least l (hs ▸ hcomb) ((hrest l hcomb).mp hlater)

/-- A failed search has left nothing of its length: entering the longer ones leaves the
same combinations to come. -/
theorem Ready.addFlow_of_failed (hg : g.Ready) (hn : g.nowFlowNum ≠ 0)
    (hc : g.enterSearch.getNewComb.2 = false) :
    let t := g.enterSearch.getNewComb.1.addFlow
    t.sum = g.sum ∧ t.flowNumLimit = g.flowNumLimit ∧ t.Ready ∧
      ∀ l, IsCombination g.sum l → (g.Before l ↔ t.Before l) := by
  obtain ⟨⟨p,x,hp⟩,hbefore⟩ := hg.enterSearch hn
  obtain ⟨hnone,r,hlen,hfail⟩ := hp.getNewComb_false hc
  have hone : 1 ≤ g.enterSearch.nowFlowNum := by
    rw [enterSearch_nowFlowNum]
    split_ifs <;> omega
  obtain ⟨hs,hl,-,hready,hlonger⟩ := addFlow_spec r hlen hone
  rw [hfail]
  refine ⟨hs.trans g.enterSearch_sum,hl.trans g.enterSearch_flowNumLimit,hready,fun l hcomb => ?_⟩
  have hcomb' : IsCombination g.enterSearch.sum l := by rwa [enterSearch_sum]
  rw [hbefore l hcomb, hlonger l hcomb']
  constructor
  · exact fun hlater => hlater.resolve_right fun hsame => hnone l hcomb' hsame.1.symm hsame.2
  · exact Or.inl

/-- One call of `get_next`: the next combination within the limit, or none is left. -/
theorem getNext_spec (g : BetaGenerator) (hsum : 1 ≤ g.sum) (hlimit : 2 < g.flowNumLimit)
    (hg : g.Ready) :
    (g.getNext.2 = true → Found g g.getNext.1) ∧
      (g.getNext.2 = false →
        ∀ l, IsCombination g.sum l → l.length < g.flowNumLimit → ¬ g.Before l) := by
  induction g using getNext.induct with
  | case1 g hlt hzero =>
    have hnext : g.getNext = ({ g with nowFlowNum := 1, nowResult := [g.sum] },true) := by
      have hr : g.nowResult = [] := by
        cases hg with
        | fresh _ hr => exact hr
        | found _ hlen => exact List.length_eq_zero_iff.mp (hlen.trans hzero)
        | started k hn _ => omega
      rw [getNext, if_pos hlt, if_pos hzero, hr]
      rfl
    rw [hnext]
    exact ⟨fun _ => found_single hsum (by omega) hzero,fun h => absurd h (by simp)⟩
  | case2 g hlt hzero c hc =>
    obtain ⟨⟨p,x,hp⟩,hbefore⟩ := hg.enterSearch hzero
    have hnext : g.getNext = c := by
      rw [getNext, if_pos hlt, if_neg hzero]
      exact if_pos hc
    rw [hnext]
    exact ⟨fun _ => hp.found hbefore hc (by rw [enterSearch_nowFlowNum]; split_ifs <;> omega),
      fun h => absurd h (by simp [hc])⟩
  | case3 g hlt hzero c hc ih =>
    have hnext : g.getNext = c.1.addFlow.getNext := by
      rw [getNext, if_pos hlt, if_neg hzero]
      exact if_neg hc
    obtain ⟨hs,hl,hready,hrest⟩ := hg.addFlow_of_failed hzero (Bool.eq_false_iff.mpr hc)
    obtain ⟨htrue,hfalse⟩ := ih (hs ▸ hsum) (hl ▸ hlimit) hready
    rw [hnext]
    refine ⟨fun h => (htrue h).of_before hs hl hrest,fun h l hcomb hlt' hlater => ?_⟩
    exact hfalse h l (hs ▸ hcomb) (hl ▸ hlt') ((hrest l hcomb).mp hlater)
  | case4 g hlt =>
    have hnext : g.getNext = (g,false) := by rw [getNext, if_neg hlt]
    rw [hnext]
    refine ⟨fun h => absurd h (by simp),fun _ l hcomb hlt' hlater => ?_⟩
    rcases hlater with h | ⟨h,-⟩ <;> omega

end BetaGenerator
end SketchMonitor
