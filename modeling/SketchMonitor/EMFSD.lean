import SketchMonitor.Combinations
import SketchMonitor.FiniteSums

/-!
# Estimating the flow size distribution

`EMFSD` counts how often each counter value occurs and refines, epoch by epoch, an
estimate of how many flows of each size there are. Arithmetic is that of a field
`K`, with `exp` given, so that it can be read exactly. Counter values are natural
numbers, which stand for values below 2^31, the range of the `int`s that sum them up: the only
caller widens bytes, and no conversion changes one.
-/

namespace SketchMonitor

open BetaGenerator

/-- The vectors have the size of `counterDist` and are zero beyond it. `nSum` has no
value before the first epoch. -/
structure EMFSD (K : Type*) where
  w : ℕ
  counterDist : List ℕ
  distNew : ℕ → K
  ns : ℕ → K
  nNew : K
  nSum : Option K

namespace EMFSD

def factorial : ℕ → ℕ
  | 0 => 1
  | 1 => 1
  | n+2 => factorial (n+1) * (n+2)

theorem factorial_eq (n : ℕ) : factorial n = n.factorial := by
  fun_induction factorial n with
  | case1 => rfl
  | case2 => rfl
  | case3 n ih => rw [ih, Nat.factorial_succ (n+1), mul_comm]

/-- How many counters have each value, up to the largest. -/
def collectCounters (counters : List ℕ) : List ℕ :=
  let maxCounterVal := counters.foldl max 0
  counters.foldl (fun dist c => dist.modify c (· + 1)) (List.replicate (maxCounterVal + 1) 0)

variable {K : Type*} [Field K] (exp : K → K)

/-- The values `i` of the loops `for (uint32_t i = 1; i < counter_dist.size(); i++)`. -/
def sizes (e : EMFSD K) : List ℕ := List.range' 1 (e.counterDist.length - 1)

/-- `counter_dist[i]`. -/
def counted (e : EMFSD K) (i : ℕ) : ℕ := e.counterDist.getD i 0

/-- `set_counters` on an array of 32-bit counters, of which there are `w`. -/
def setCounters (counters : List ℕ) : EMFSD K :=
  let counterDist := collectCounters counters
  let n : K := (counters.length : K) - counterDist.getD 0 0
  let inside (i : ℕ) : Bool := 1 ≤ i ∧ i < counterDist.length
  { w := counters.length
    counterDist := counterDist
    distNew := fun i => if inside i then counterDist.getD i 0 / n else 0
    ns := fun i => if inside i then counterDist.getD i 0 else 0
    nNew := n
    nSum := none }

/-- The sizes of a combination with their multiplicities are visited in some order. -/
def getPFromBeta (w : ℕ) (beta : List ℕ) (lambda : K) (nowDist : ℕ → K) (nowN : K) : K :=
  beta.dedup.foldl (fun ret si =>
    let fi := beta.count si
    let lambdaI := nowN * nowDist si / w
    ret * (lambdaI ^ fi / factorial fi)) (exp (-lambda))

/-- The probability of one combination in an epoch: `dist_old` and `n_old` are what the
epoch finds in `dist_new` and `n_new`. -/
def p (e : EMFSD K) (beta : List ℕ) : K :=
  getPFromBeta exp e.w beta (e.nNew / e.w) e.distNew e.nNew

/-- The first pass over the combinations of `i`. -/
def sumP (e : EMFSD K) (i : ℕ) : K :=
  (combinations i).foldl (fun sumP beta => sumP + e.p exp beta) 0

/-- The second pass shares the counters of value `i` among the sizes. -/
def addShares (e : EMFSD K) (ns : ℕ → K) (i : ℕ) : ℕ → K :=
  (combinations i).foldl (fun ns beta => beta.foldl (fun ns x =>
    Function.update ns x (ns x + e.counted i * e.p exp beta / e.sumP exp i)) ns) ns

def nextEpoch (e : EMFSD K) : EMFSD K :=
  let ns := e.sizes.foldl (fun ns i =>
    if e.counted i = 0 then ns else e.addShares exp ns i) fun _ => 0
  let nNew := e.sizes.foldl (fun n i => n + ns i) 0
  { e with
    ns := ns
    nNew := nNew
    distNew := fun i => if i ∈ e.sizes then ns i / nNew else e.distNew i
    nSum := some nNew }

/-- The estimate after some epochs. -/
def epochs (counters : List ℕ) (n : ℕ) : EMFSD K := (nextEpoch exp)^[n] (setCounters counters)

section Divisions

/-- The divisors of the divisions that `set_counters` executes. -/
def setCountersDivisors (counters : List ℕ) : List K :=
  let e : EMFSD K := setCounters counters
  e.sizes.map fun _ => (e.w : K) - e.counted 0

/-- Those of `get_p_from_beta`. -/
def betaDivisors (w : ℕ) (beta : List ℕ) : List K :=
  beta.dedup.flatMap fun si => [(w : K),(factorial (beta.count si) : K)]

/-- Those of `next_epoch`: one for `lambda`, those of the two passes for each value that
occurs, and one for each entry of `dist_new`. -/
def epochDivisors (e : EMFSD K) : List K :=
  (e.w : K) :: (e.sizes.flatMap fun i =>
    if e.counted i = 0 then [] else
      (combinations i).flatMap (betaDivisors e.w) ++ (combinations i).flatMap fun beta =>
        betaDivisors e.w beta ++ beta.map fun _ => e.sumP exp i) ++
    e.sizes.map fun _ => (e.nextEpoch exp).nNew

end Divisions

end EMFSD
end SketchMonitor
