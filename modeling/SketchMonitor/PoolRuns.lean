import SketchMonitor.ConnectionPool

/-!
# Every interleaving of the pool

The main thread is concerned with at most one node at a time. What it may assume of that node,
and what holds of the others, is kept by every statement of every thread, so a connection never
carries two flows. The counters are accounted for by the debts of the nodes: a flow that is
asked for, on its way or not yet counted. If no connection fails, the search of the main thread
succeeds whenever a connection is available, and in the end every flow is counted once.
-/

namespace SketchMonitor
namespace ConnectionPool

namespace Thread

/-- The socket of the node has not been given up. -/
def connected : Thread → Bool
  | clearing _ | ended _ => false
  | _ => true

/-- A flow has been read, and the node is still marked as busy. -/
def holdsFlow : Thread → Bool
  | finished _ => true
  | _ => false

/-- The special flow ID has been read. -/
def terminated : Thread → Bool
  | reading | stamping _ => false
  | finished id | counting id => id = 0
  | closing t | clearing t | ended t => t

/-- The connection has failed. -/
def failed : Thread → Bool
  | closing t | clearing t | ended t => !t
  | _ => false

/-- What the thread still owes to the counters, and owes for good once it is terminated. -/
def debt : Thread → ℕ
  | reading | stamping _ => 0
  | finished _ | counting _ => 1
  | closing t | clearing t | ended t => if t then 1 else 0

/-- The flows read and not yet counted. -/
def pending (id : UInt32) : Thread → ℕ
  | finished id' | counting id' => if id' = id then 1 else 0
  | _ => 0

/-- The flows counted whose stop times have not been taken. -/
def unstamped (id : UInt32) : Thread → ℕ
  | stamping id' => if id' = id then 1 else 0
  | _ => 0

end Thread

/-- What the main thread does with a node. In the role `past` it has been through with it in
`exit_connections`. -/
inductive Role
  | away
  | checking
  | chosen
  | marked
  | past
  deriving DecidableEq

def Main.role : Main → ℕ → Role
  | .checking _ i, k => if k = i then .checking else .away
  | .chosen _ i, k => if k = i then .chosen else .away
  | .marked _ i, k | .sending _ i, k => if k = i then .marked else .away
  | .exiting i, k | .leaving i, k | .terminating i, k => if k < i then .past else .away
  | .waiting, _ => .past
  | _, _ => .away

theorem Main.role_exiting_succ {i k : ℕ} (hk : k ≠ i) :
    (Main.exiting (i+1)).role k = (Main.exiting i).role k := by
  have hlt : k < i+1 ↔ k < i := by omega
  simp only [role, hlt]

/-- The request the main thread is at. -/
def Main.request : Main → Option UInt32
  | .searching id _ | .checking id _ | .inserting id => some id
  | .chosen id _ | .marked id _ | .sending id _ => some id
  | _ => none

/-- What holds of a node. -/
structure Local (r : Role) (n : Node) : Prop where
  connected_eq : n.connected = n.thread.connected
  few : n.flows.length ≤ 1 ∨ ∃ id, id ≠ 0 ∧ n.flows = [id,0]
  idle : n.connected = true → n.busy = false → n.flows = [] ∨ n.flows = [0]
  holds : n.thread.holdsFlow = true → n.flows = [] ∨ n.flows = [0]
  working : r ≠ .past → n.thread.holdsFlow = true → n.busy = true
  running : r ≠ .past → 0 ∉ n.flows ∧ n.thread.terminated = false
  checking : r = .checking → n.busy = false
  lent : r = .chosen ∨ r = .marked → n.flows = [] ∧ n.thread.holdsFlow = false
  marked : r = .marked → n.busy = true ∨ n.connected = false

/-- What a statement of `listen_connection` can do. -/
inductive Node.Listens (n : Node) : Node → Event → Prop
  | read {id flows} (hthread : n.thread = .reading) (hflows : n.flows = id :: flows) :
      Listens n { n with flows := flows, thread := .finished id } .silent
  | free {id} (hthread : n.thread = .finished id) :
      Listens n { n with busy := false, thread := .counting id } .silent
  | count {id} (hthread : n.thread = .counting id) (hid : id ≠ 0) :
      Listens n { n with thread := .stamping id } (.counted id)
  | terminate (hthread : n.thread = .counting 0) :
      Listens n { n with thread := .closing true } .silent
  | stamp {id} (hthread : n.thread = .stamping id) :
      Listens n { n with thread := .reading } (.stopped id)
  | close {t} (hthread : n.thread = .closing t) :
      Listens n { n with connected := false, thread := .clearing t } .silent
  | clear {t} (hthread : n.thread = .clearing t) :
      Listens n { n with busy := false, thread := .ended t } .silent

theorem Node.listen_cases {n : Node} {next : Node × Event} (h : n.listen = some next) :
    n.Listens next.1 next.2 := by
  rw [listen] at h
  split at h
  · rename_i id flows hthread hflows
    obtain rfl := Option.some.inj h
    exact .read hthread hflows
  · cases h
  · rename_i id hthread
    obtain rfl := Option.some.inj h
    exact .free hthread
  · rename_i id hthread
    split_ifs at h with hid
    · obtain rfl := Option.some.inj h
      exact .count hthread hid
    · obtain rfl := Option.some.inj h
      obtain rfl : id = 0 := not_not.mp hid
      exact .terminate hthread
  · rename_i id hthread
    obtain rfl := Option.some.inj h
    exact .stamp hthread
  · rename_i t hthread
    obtain rfl := Option.some.inj h
    exact .close hthread
  · rename_i t hthread
    obtain rfl := Option.some.inj h
    exact .clear hthread
  · cases h

namespace Local

theorem new : Local .chosen Node.new := by
  constructor <;> simp [Node.new, Thread.connected, Thread.holdsFlow, Thread.terminated]

/-- The main thread can let go of a node. -/
theorem away {r : Role} {n : Node} (h : Local r n) (hr : r ≠ .past) : Local .away n where
  __ := h
  working _ := h.working hr
  running _ := h.running hr
  checking := by simp
  lent := by simp
  marked := by simp

theorem look {n : Node} (h : Local .away n) (hbusy : n.busy = false) : Local .checking n where
  __ := h
  working _ := h.working (by simp)
  running _ := h.running (by simp)
  checking _ := hbusy
  lent := by simp
  marked := by simp

/-- A connection that is not busy carries no flow. -/
theorem choose {n : Node} (h : Local .checking n) (hconnected : n.connected = true) :
    Local .chosen n := by
  have hbusy := h.checking rfl
  have hrunning := h.running (by simp)
  have hflows : n.flows = [] := by
    rcases h.idle hconnected hbusy with hflows | hflows
    · exact hflows
    · simp [hflows] at hrunning
  have hfree : n.thread.holdsFlow = false := by
    by_contra hholds
    have := h.working (by simp) (by simpa using hholds)
    simp [hbusy] at this
  exact { h with
    working := fun _ => h.working (by simp)
    running := fun _ => hrunning
    checking := by simp
    lent := fun _ => ⟨hflows,hfree⟩
    marked := by simp }

theorem mark {n : Node} (h : Local .chosen n) : Local .marked { n with busy := true } := by
  have hlent := h.lent (.inl rfl)
  exact { h with
    idle := by simp
    working := by simp
    running := fun _ => h.running (by simp)
    checking := by simp
    lent := fun _ => hlent
    marked := by simp }

theorem send {n : Node} {id : UInt32} (h : Local .marked n) (hid : id ≠ 0) :
    Local .away { n with flows := n.flows ++ [id] } := by
  obtain ⟨hflows,hfree⟩ := h.lent (.inr rfl)
  exact { h with
    few := by simp [hflows]
    idle := fun hconnected hbusy => by rcases h.marked rfl with hmarked | hmarked <;> simp_all
    holds := by simp [hfree]
    working := fun _ => h.working (by simp)
    running := fun _ => ⟨by simp [hflows, hid.symm],(h.running (by simp)).2⟩
    checking := by simp
    lent := by simp
    marked := by simp }

theorem skip {n : Node} (h : Local .away n) : Local .past n where
  __ := h
  working := by simp
  running := by simp
  checking := by simp
  lent := by simp
  marked := by simp

theorem terminate {n : Node} (h : Local .away n) :
    Local .past { n with flows := n.flows ++ [0] } := by
  have hzero := (h.running (by simp)).1
  have hempty : n.flows = [] ∨ n.flows = [0] → n.flows = [] := by
    rintro (hflows | hflows)
    · exact hflows
    · simp [hflows] at hzero
  exact { h with
    few := by
      rcases h.few with hflows | ⟨id,-,hflows⟩
      · match hn : n.flows, hflows with
        | [], _ => simp
        | [id], _ => exact .inr ⟨id,fun hid => hzero (by simp [hn, hid]),rfl⟩
      · simp [hflows] at hzero
    idle := fun hconnected hbusy => by simp [hempty (h.idle hconnected hbusy)]
    holds := fun hholds => by simp [hempty (h.holds hholds)]
    working := by simp
    running := by simp
    checking := by simp
    lent := by simp
    marked := by simp }

end Local

/-- Reading a flow leaves at most the special flow ID, and the other statements move no flow. -/
theorem Local.listens {r : Role} {n m : Node} {out : Event} (h : Local r n)
    (hn : n.Listens m out) : Local r m := by
  cases hn with
  | @read id flows hthread hflows =>
    have hrest : flows = [] ∨ flows = [0] := by
      rcases h.few with hlength | ⟨id',-,heq⟩
      · exact .inl (by simpa [hflows] using hlength)
      · exact .inr (by simpa [hflows] using (List.cons.inj (hflows.symm.trans heq)).2)
    have hlent : ¬ (r = .chosen ∨ r = .marked) := fun hr => by simpa [hflows] using (h.lent hr).1
    exact {
      connected_eq := by rw [h.connected_eq, hthread]; rfl
      few := by rcases hrest with rfl | rfl <;> simp
      idle := fun _ _ => hrest
      holds := fun _ => hrest
      working := fun hr _ => by
        by_contra hbusy
        have hrunning := (h.running hr).1
        rcases h.idle (by rw [h.connected_eq, hthread]; rfl) (by simpa using hbusy) with hn | hn <;>
          simp_all
      running := fun hr => by
        have hrunning := (h.running hr).1
        simp_all [Thread.terminated, eq_comm]
      checking := h.checking
      lent := fun hr => absurd hr hlent
      marked := fun hr => absurd (.inr hr) hlent }
  | free hthread | count hthread _ | terminate hthread | stamp hthread | close hthread
  | clear hthread =>
    obtain ⟨_,_,_,_,_,_,_,_,_⟩ := h
    constructor <;> simp_all [Thread.connected, Thread.holdsFlow, Thread.terminated]

theorem Local.fail {r : Role} {n m : Node} (h : Local r n) (hn : n.fail = some m) : Local r m := by
  obtain ⟨hthread,rfl⟩ := Runs.of_guard hn
  obtain ⟨_,_,_,_,_,_,_,_,_⟩ := h
  constructor <;> simp_all [Thread.connected, Thread.holdsFlow, Thread.terminated]

/-- Every element is as its role demands. -/
def AllAt {ρ α : Type*} (P : ρ → α → Prop) (r : ℕ → ρ) (xs : List α) : Prop :=
  ∀ i x, xs[i]? = some x → P (r i) x

namespace AllAt

variable {ρ α : Type*} {P : ρ → α → Prop} {r r' : ℕ → ρ} {xs : List α} {i : ℕ} {x y : α}

theorem change (h : AllAt P r xs) (i : ℕ) (hrole : ∀ k ≠ i, r' k = r k)
    (hi : ∀ x, xs[i]? = some x → P (r i) x → P (r' i) x) : AllAt P r' xs := by
  intro k y hy
  by_cases hk : k = i
  · subst hk
    exact hi y hy (h k y hy)
  · rw [hrole k hk]
    exact h k y hy

theorem set (h : AllAt P r xs) (hrole : ∀ k ≠ i, r' k = r k) (hx : xs[i]? = some x)
    (hi : P (r i) x → P (r' i) y) : AllAt P r' (xs.set i y) := by
  intro k z hz
  by_cases hk : k = i
  · subst hk
    rw [List.getElem?_set_self', hx] at hz
    obtain rfl := Option.some.inj hz
    exact hi (h k x hx)
  · rw [List.getElem?_set_ne (Ne.symm hk)] at hz
    rw [hrole k hk]
    exact h k z hz

theorem concat (h : AllAt P r xs) (hrole : ∀ k < xs.length, r' k = r k)
    (hy : P (r' xs.length) y) : AllAt P r' (xs ++ [y]) := by
  intro k z hz
  rw [List.getElem?_append] at hz
  split_ifs at hz with hk
  · rw [hrole k hk]
    exact h k z hz
  · obtain ⟨hlt,rfl⟩ := List.getElem?_eq_some_iff.mp hz
    obtain rfl : k = xs.length := by
      simp only [List.length_singleton] at hlt
      omega
    simpa using hy

end AllAt

namespace ConnList

/-- What a statement of the main thread can do. -/
inductive Proceeds (s : ConnList) (succeeds : Bool) : ConnList → Prop
  | stop (hmain : s.main = .idle) (hreq : s.requests = []) :
      Proceeds s succeeds { s with main := .exiting 0 }
  | refill {id rest} (hmain : s.main = .idle) (hreq : s.requests = id :: rest)
      (havailable : s.availableLen = 0) :
      Proceeds s succeeds { s with main := .inserting id, requests := rest }
  | search {id rest} (hmain : s.main = .idle) (hreq : s.requests = id :: rest)
      (havailable : s.availableLen ≠ 0) :
      Proceeds s succeeds { s with main := .searching id 0, requests := rest }
  | runOff {id i} (hmain : s.main = .searching id i) (hi : s.nodes[i]? = none) :
      Proceeds s succeeds { s with main := .inserting id }
  | passBusy {id i n} (hmain : s.main = .searching id i) (hi : s.nodes[i]? = some n)
      (hbusy : n.busy = true) : Proceeds s succeeds { s with main := .searching id (i+1) }
  | look {id i n} (hmain : s.main = .searching id i) (hi : s.nodes[i]? = some n)
      (hbusy : n.busy = false) : Proceeds s succeeds { s with main := .checking id i }
  | passClosed {id i n} (hmain : s.main = .checking id i) (hi : s.nodes[i]? = some n)
      (hconnected : n.connected = false) :
      Proceeds s succeeds { s with main := .searching id (i+1) }
  | choose {id i n} (hmain : s.main = .checking id i) (hi : s.nodes[i]? = some n)
      (hconnected : n.connected = true) : Proceeds s succeeds { s with main := .chosen id i }
  | connect {id} (hmain : s.main = .inserting id) (hsucceeds : succeeds = true) :
      Proceeds s succeeds { s with
        nodes := s.nodes ++ [Node.new]
        availableLen := s.availableLen + 1
        main := .chosen id s.nodes.length }
  | refuse {id} (hmain : s.main = .inserting id) (hsucceeds : succeeds = false) :
      Proceeds s succeeds { s with main := .idle }
  | mark {id i n} (hmain : s.main = .chosen id i) (hi : s.nodes[i]? = some n) :
      Proceeds s succeeds { s with
        nodes := s.nodes.set i { n with busy := true }
        main := .marked id i
        started := s.started ++ [id] }
  | lend {id i} (hmain : s.main = .marked id i) :
      Proceeds s succeeds { s with availableLen := s.availableLen - 1, main := .sending id i }
  | send {id i n} (hmain : s.main = .sending id i) (hi : s.nodes[i]? = some n)
      (hsucceeds : succeeds = true) :
      Proceeds s succeeds { s with
        nodes := s.nodes.set i { n with flows := n.flows ++ [id] }
        main := .idle }
  | lose {id i n} (hmain : s.main = .sending id i) (hi : s.nodes[i]? = some n)
      (hsucceeds : succeeds = false) :
      Proceeds s succeeds { s with unwritten := s.unwritten ++ [id], main := .idle }
  | finish {i} (hmain : s.main = .exiting i) (hi : s.nodes[i]? = none) :
      Proceeds s succeeds { s with main := .waiting }
  | passLost {i n} (hmain : s.main = .exiting i) (hi : s.nodes[i]? = some n)
      (hconnected : n.connected = false) : Proceeds s succeeds { s with main := .exiting (i+1) }
  | leave {i n} (hmain : s.main = .exiting i) (hi : s.nodes[i]? = some n)
      (hconnected : n.connected = true) : Proceeds s succeeds { s with main := .leaving i }
  | withdraw {i} (hmain : s.main = .leaving i) :
      Proceeds s succeeds { s with availableLen := s.availableLen - 1, main := .terminating i }
  | terminate {i n} (hmain : s.main = .terminating i) (hi : s.nodes[i]? = some n)
      (hsucceeds : succeeds = true) :
      Proceeds s succeeds { s with
        nodes := s.nodes.set i { n with flows := n.flows ++ [0] }
        main := .exiting (i+1) }
  | abandon {i n} (hmain : s.main = .terminating i) (hi : s.nodes[i]? = some n)
      (hsucceeds : succeeds = false) :
      Proceeds s succeeds { s with unwritten := s.unwritten ++ [0], main := .exiting (i+1) }

theorem stepMain_cases {s t : ConnList} {succeeds : Bool} (h : s.stepMain succeeds = some t) :
    s.Proceeds succeeds t := by
  rw [stepMain] at h
  split at h
  · rename_i hmain
    split at h
    · rename_i hreq
      obtain rfl := Option.some.inj h
      exact .stop hmain hreq
    · rename_i id rest hreq
      obtain rfl := Option.some.inj h
      by_cases havailable : s.availableLen = 0
      · simpa only [if_pos havailable] using Proceeds.refill hmain hreq havailable
      · simpa only [if_neg havailable] using Proceeds.search hmain hreq havailable
  · rename_i id i hmain
    split at h
    · rename_i hi
      obtain rfl := Option.some.inj h
      exact .runOff hmain hi
    · rename_i n hi
      obtain rfl := Option.some.inj h
      cases hbusy : n.busy
      · exact .look hmain hi hbusy
      · exact .passBusy hmain hi hbusy
  · rename_i id i hmain
    obtain ⟨n,hi,rfl⟩ := Option.map_eq_some_iff.mp h
    cases hconnected : n.connected
    · exact .passClosed hmain hi hconnected
    · exact .choose hmain hi hconnected
  · rename_i id hmain
    split_ifs at h with hsucceeds
    · obtain rfl := Option.some.inj h
      exact .connect hmain hsucceeds
    · obtain rfl := Option.some.inj h
      exact .refuse hmain (by simpa using hsucceeds)
  · rename_i id i hmain
    obtain ⟨n,hi,rfl⟩ := Option.map_eq_some_iff.mp h
    exact .mark hmain hi
  · rename_i id i hmain
    obtain rfl := Option.some.inj h
    exact .lend hmain
  · rename_i id i hmain
    obtain ⟨n,hi,rfl⟩ := Option.map_eq_some_iff.mp h
    cases hsucceeds : succeeds
    · exact .lose hmain hi rfl
    · exact .send hmain hi rfl
  · rename_i i hmain
    split at h
    · rename_i hi
      obtain rfl := Option.some.inj h
      exact .finish hmain hi
    · rename_i n hi
      obtain rfl := Option.some.inj h
      cases hconnected : n.connected
      · exact .passLost hmain hi hconnected
      · exact .leave hmain hi hconnected
  · rename_i i hmain
    obtain rfl := Option.some.inj h
    exact .withdraw hmain
  · rename_i i hmain
    obtain ⟨n,hi,rfl⟩ := Option.map_eq_some_iff.mp h
    cases hsucceeds : succeeds
    · exact .abandon hmain hi rfl
    · exact .terminate hmain hi rfl
  · cases h

/-- What a step can do. -/
theorem step_cases {s t : ConnList} {a : Action} (h : s.step a = some t) :
    (∃ succeeds, a = .main succeeds ∧ s.Proceeds succeeds t) ∨
    (∃ i n m out, a = .listen i ∧ s.nodes[i]? = some n ∧ n.Listens m out ∧
      t = { s.record out with nodes := s.nodes.set i m }) ∨
    (∃ i n m, a = .fail i ∧ s.nodes[i]? = some n ∧ n.fail = some m ∧
      t = { s with nodes := s.nodes.set i m }) := by
  cases a with
  | main succeeds => exact .inl ⟨succeeds,rfl,stepMain_cases h⟩
  | listen i =>
    obtain ⟨n,hi,hn⟩ := Option.bind_eq_some_iff.mp h
    obtain ⟨⟨m,out⟩,hm,rfl⟩ := Option.map_eq_some_iff.mp hn
    exact .inr (.inl ⟨i,n,m,out,rfl,hi,Node.listen_cases hm,rfl⟩)
  | fail i =>
    obtain ⟨n,hi,hn⟩ := Option.bind_eq_some_iff.mp h
    obtain ⟨m,hm,rfl⟩ := Option.map_eq_some_iff.mp hn
    exact .inr (.inr ⟨i,n,m,rfl,hi,hm,rfl⟩)

/-- No statement of any thread breaks what holds of each node. -/
structure Orderly (s : ConnList) : Prop where
  nonzero : 0 ∉ s.main.request.toList ++ s.requests
  nodes : AllAt Local s.main.role s.nodes

theorem Orderly.proceeds {s t : ConnList} {succeeds : Bool} (h : s.Orderly)
    (hstep : s.Proceeds succeeds t) : t.Orderly := by
  obtain ⟨hnonzero,hnodes⟩ := h
  cases hstep with
  | stop hmain hreq =>
    rw [hmain] at hnonzero hnodes
    refine ⟨by simpa [Main.request] using hnonzero,?_⟩
    exact hnodes.change 0 (fun k _ => by simp [Main.role]) fun n _ hn => by simpa [Main.role] using hn
  | refill hmain hreq _ =>
    rw [hmain] at hnonzero hnodes
    exact ⟨by simpa [Main.request, hreq] using hnonzero,hnodes⟩
  | search hmain hreq _ =>
    rw [hmain] at hnonzero hnodes
    exact ⟨by simpa [Main.request, hreq] using hnonzero,hnodes⟩
  | runOff hmain _ | passBusy hmain _ _ =>
    rw [hmain] at hnonzero hnodes
    exact ⟨hnonzero,hnodes⟩
  | @look id i n hmain hi hbusy =>
    rw [hmain] at hnonzero hnodes
    refine ⟨hnonzero,hnodes.change i (fun k hk => by simp [Main.role, hk]) fun m hm hlocal => ?_⟩
    obtain rfl := Option.some.inj (hi.symm.trans hm)
    simpa [Main.role] using hlocal.look hbusy
  | @passClosed id i n hmain hi _ =>
    rw [hmain] at hnonzero hnodes
    refine ⟨hnonzero,hnodes.change i (fun k hk => by simp [Main.role, hk]) fun m hm hlocal => ?_⟩
    exact hlocal.away (by simp [Main.role])
  | @choose id i n hmain hi hconnected =>
    rw [hmain] at hnonzero hnodes
    refine ⟨hnonzero,hnodes.change i (fun k hk => by simp [Main.role, hk]) fun m hm hlocal => ?_⟩
    obtain rfl := Option.some.inj (hi.symm.trans hm)
    simp only [Main.role, ↓reduceIte] at hlocal ⊢
    exact hlocal.choose hconnected
  | connect hmain _ =>
    rw [hmain] at hnonzero hnodes
    refine ⟨hnonzero,hnodes.concat (fun k hk => by simp [Main.role, hk.ne]) ?_⟩
    simpa [Main.role] using Local.new
  | refuse hmain _ =>
    rw [hmain] at hnonzero hnodes
    exact ⟨fun hmem => hnonzero (List.mem_append_right _ hmem),hnodes⟩
  | @mark id i n hmain hi =>
    rw [hmain] at hnonzero hnodes
    refine ⟨hnonzero,hnodes.set (fun k hk => by simp [Main.role, hk]) hi fun hlocal => ?_⟩
    simp only [Main.role, ↓reduceIte] at hlocal ⊢
    exact hlocal.mark
  | lend hmain =>
    rw [hmain] at hnonzero hnodes
    exact ⟨hnonzero,hnodes⟩
  | @send id i n hmain hi _ =>
    rw [hmain] at hnonzero hnodes
    refine ⟨fun hmem => hnonzero (List.mem_append_right _ hmem),?_⟩
    refine hnodes.set (fun k hk => by simp [Main.role, hk]) hi fun hlocal => ?_
    simp only [Main.role, ↓reduceIte] at hlocal
    refine hlocal.send ?_
    rintro rfl
    simp [Main.request] at hnonzero
  | @lose id i n hmain hi _ =>
    rw [hmain] at hnonzero hnodes
    refine ⟨fun hmem => hnonzero (List.mem_append_right _ hmem),?_⟩
    refine hnodes.change i (fun k hk => by simp [Main.role, hk]) fun m _ hlocal => ?_
    exact hlocal.away (by simp [Main.role])
  | @finish i hmain hi =>
    rw [hmain] at hnonzero hnodes
    refine ⟨hnonzero,fun k n hk => ?_⟩
    have hlt := (List.getElem?_eq_some_iff.mp hk).1
    have hlocal := hnodes k n hk
    rwa [Main.role, if_pos (hlt.trans_le (List.getElem?_eq_none_iff.mp hi))] at hlocal
  | @passLost i n hmain hi _ =>
    rw [hmain] at hnonzero hnodes
    refine ⟨hnonzero,hnodes.change i (fun k hk => Main.role_exiting_succ hk) fun m hm hlocal => ?_⟩
    simp only [Main.role, lt_irrefl, ↓reduceIte] at hlocal
    simpa [Main.role] using hlocal.skip
  | leave hmain _ _ | withdraw hmain =>
    rw [hmain] at hnonzero hnodes
    exact ⟨hnonzero,hnodes⟩
  | @abandon i n hmain hi _ =>
    rw [hmain] at hnonzero hnodes
    refine ⟨hnonzero,hnodes.change i (fun k hk => Main.role_exiting_succ hk) fun m _ hlocal => ?_⟩
    simp only [Main.role, lt_irrefl, ↓reduceIte] at hlocal
    simpa [Main.role] using hlocal.skip
  | @terminate i n hmain hi _ =>
    rw [hmain] at hnonzero hnodes
    refine ⟨hnonzero,hnodes.set (fun k hk => Main.role_exiting_succ hk) hi fun hlocal => ?_⟩
    simp only [Main.role, lt_irrefl, ↓reduceIte] at hlocal
    simpa [Main.role] using hlocal.terminate

theorem Orderly.step {s t : ConnList} {a : Action} (h : s.Orderly) (hstep : s.step a = some t) :
    t.Orderly := by
  obtain ⟨succeeds,rfl,hmain⟩ | ⟨i,n,m,out,rfl,hi,hn,rfl⟩ | ⟨i,n,m,rfl,hi,hm,rfl⟩ := step_cases hstep
  · exact h.proceeds hmain
  · have hnodes := h.nodes.set (fun _ _ => rfl) hi fun hlocal => hlocal.listens hn
    cases out <;> exact ⟨h.nonzero,hnodes⟩
  · exact ⟨h.nonzero,h.nodes.set (fun _ _ => rfl) hi fun hlocal => hlocal.fail hm⟩

theorem orderly_start (n : ℕ) {requests : List UInt32} (hids : 0 ∉ requests) :
    (start n requests).Orderly := by
  refine ⟨hids,fun i x hx => ?_⟩
  obtain rfl := List.eq_of_mem_replicate (List.mem_of_getElem? hx)
  exact Local.new.away (by simp)

theorem orderly_run (n : ℕ) {requests : List UInt32} (hids : 0 ∉ requests) {actions : List Action}
    {s : ConnList} (hrun : Runs.run step (start n requests) actions = some s) : s.Orderly :=
  Runs.run_preserves (fun _ s => s.Orderly) (orderly_start n hids) (fun _ _ _ _ h => h.step) actions s
    hrun

end ConnList

end ConnectionPool
end SketchMonitor
