import SketchMonitor.FiniteSums
import SketchMonitor.PoolRuns

/-!
# The counters of the pool

`available_len` counts the connections without a debt: a flow asked for, on its way or not yet
counted, or one that could not be written. This balance holds modulo the word size at every
statement of every thread. While the main thread generates requests it holds of the numbers
themselves, so the counter never wraps. The flows whose start time was taken are those counted,
those on the nodes and those that could not be written.
-/

namespace SketchMonitor
namespace ConnectionPool

open FiniteSums

/-- What a node owes to `available_len`. -/
def Node.debt (n : Node) : ℕ := n.flows.length + n.thread.debt

/-- The flows with the given ID on a node. -/
def Node.inflight (id : UInt32) (n : Node) : ℕ := n.flows.count id + n.thread.pending id

namespace Event

/-- The flows a statement counts. -/
def counts : Event → List UInt32
  | counted id => [id]
  | _ => []

/-- The flows whose stop time it takes. -/
def stops : Event → List UInt32
  | stopped id => [id]
  | _ => []

end Event

namespace Main

/-- Between `available_len--` and `write_flow_req`. -/
def lent : Main → ℕ
  | sending _ _ | terminating _ => 1
  | _ => 0

/-- Between the test of `available_len` and `available_len--`. -/
def reserved : Main → ℕ
  | searching _ _ | checking _ _ | chosen _ _ | marked _ _ => 1
  | _ => 0

/-- The node of the current request may have to be inserted. -/
def unserved : Main → ℕ
  | searching _ _ | checking _ _ | inserting _ => 1
  | _ => 0

/-- In `exit_connections`. -/
def exits : Main → Bool
  | exiting _ | leaving _ | terminating _ | waiting => true
  | _ => false

/-- The request whose start time has not been taken. -/
def unstarted : Main → Option UInt32
  | searching id _ | checking id _ | inserting id | chosen id _ => some id
  | _ => none

/-- The request whose start time has been taken and that has not been sent. -/
def unsent (id : UInt32) : Main → ℕ
  | marked id' _ | sending id' _ => if id' = id then 1 else 0
  | _ => 0

end Main

theorem Node.debt_send (n : Node) (id : UInt32) :
    Node.debt { n with flows := n.flows ++ [id] } = n.debt + 1 := by
  simp [debt, add_right_comm]

theorem Node.inflight_send (n : Node) (id id' : UInt32) :
    Node.inflight id { n with flows := n.flows ++ [id'] } =
      n.inflight id + if id' = id then 1 else 0 := by
  simp [inflight, List.count_append, List.count_singleton, add_right_comm]

theorem Node.Listens.debt {n m : Node} {out : Event} (h : n.Listens m out) :
    n.debt = m.debt + out.counts.length := by
  cases h <;> simp_all [Node.debt, Thread.debt, Event.counts, add_comm]

theorem Node.Listens.inflight {n m : Node} {out : Event} {id : UInt32} (hid : id ≠ 0)
    (h : n.Listens m out) : n.inflight id = m.inflight id + out.counts.count id := by
  cases h <;> simp_all [Node.inflight, Thread.pending, Event.counts, List.count_cons, hid.symm]

/-- Counting a flow comes first, taking its stop time second. -/
theorem Node.Listens.unstamped {n m : Node} {out : Event} (id : UInt32) (h : n.Listens m out) :
    n.thread.unstamped id + out.counts.count id = m.thread.unstamped id + out.stops.count id := by
  cases h <;> simp_all [Thread.unstamped, Event.counts, Event.stops, List.count_singleton]

theorem Node.fail_debt {n m : Node} (h : n.fail = some m) : m.debt = n.debt := by
  obtain ⟨hthread,rfl⟩ := Runs.of_guard h
  simp [Node.debt, hthread, Thread.debt]

theorem Node.fail_inflight {n m : Node} (id : UInt32) (h : n.fail = some m) :
    m.inflight id = n.inflight id := by
  obtain ⟨hthread,rfl⟩ := Runs.of_guard h
  simp [Node.inflight, hthread, Thread.pending]

theorem Node.fail_unstamped {n m : Node} (id : UInt32) (h : n.fail = some m) :
    m.thread.unstamped id = n.thread.unstamped id := by
  obtain ⟨hthread,rfl⟩ := Runs.of_guard h
  simp [hthread, Thread.unstamped]

namespace ConnList

@[simp] theorem counted_record (s : ConnList) (e : Event) :
    (s.record e).counted = s.counted ++ e.counts := by
  cases e <;> simp [record, Event.counts]

@[simp] theorem stopped_record (s : ConnList) (e : Event) :
    (s.record e).stopped = s.stopped ++ e.stops := by
  cases e <;> simp [record, Event.stops]

@[simp] theorem main_record (s : ConnList) (e : Event) : (s.record e).main = s.main := by
  cases e <;> rfl

@[simp] theorem nodes_record (s : ConnList) (e : Event) : (s.record e).nodes = s.nodes := by
  cases e <;> rfl

@[simp] theorem requests_record (s : ConnList) (e : Event) : (s.record e).requests = s.requests := by
  cases e <;> rfl

@[simp] theorem started_record (s : ConnList) (e : Event) : (s.record e).started = s.started := by
  cases e <;> rfl

@[simp] theorem unwritten_record (s : ConnList) (e : Event) :
    (s.record e).unwritten = s.unwritten := by
  cases e <;> rfl

theorem availableLen_record (s : ConnList) (e : Event) :
    (s.record e).availableLen.toNat = (s.availableLen.toNat + e.counts.length) % 2^32 := by
  have hlt := s.availableLen.toNat_lt
  cases e with
  | counted id => exact UInt32.toNat_add s.availableLen 1
  | silent | stopped => exact (Nat.mod_eq_of_lt hlt).symm

theorem flowFinished_record (s : ConnList) (e : Event) :
    (s.record e).flowFinished = s.flowFinished + UInt32.ofNat e.counts.length := by
  cases e <;> simp [record, Event.counts]

def owed (nodes : List Node) : ℕ := (nodes.map Node.debt).sum

def inflight (id : UInt32) (nodes : List Node) : ℕ := (nodes.map (Node.inflight id)).sum

def unstamped (id : UInt32) (nodes : List Node) : ℕ :=
  (nodes.map fun n => n.thread.unstamped id).sum

section Nodes

variable {nodes : List Node} {i : ℕ} {n : Node}

@[simp] theorem owed_connect : owed (nodes ++ [Node.new]) = owed nodes := by
  simp [owed, Node.debt, Node.new, Thread.debt]

@[simp] theorem inflight_connect (id : UInt32) :
    inflight id (nodes ++ [Node.new]) = inflight id nodes := by
  simp [inflight, Node.inflight, Node.new, Thread.pending]

@[simp] theorem unstamped_connect (id : UInt32) :
    unstamped id (nodes ++ [Node.new]) = unstamped id nodes := by
  simp [unstamped, Node.new, Thread.unstamped]

theorem owed_set (hi : nodes[i]? = some n) (m : Node) :
    owed (nodes.set i m) + n.debt = owed nodes + m.debt :=
  sum_map_set hi m Node.debt

theorem inflight_set (id : UInt32) (hi : nodes[i]? = some n) (m : Node) :
    inflight id (nodes.set i m) + n.inflight id = inflight id nodes + m.inflight id :=
  sum_map_set hi m (Node.inflight id)

theorem unstamped_set (id : UInt32) (hi : nodes[i]? = some n) (m : Node) :
    unstamped id (nodes.set i m) + n.thread.unstamped id =
      unstamped id nodes + m.thread.unstamped id :=
  sum_map_set hi m fun n => n.thread.unstamped id

theorem unstamped_set_of_thread (id : UInt32) (hi : nodes[i]? = some n) (m : Node)
    (hthread : m.thread = n.thread) : unstamped id nodes = unstamped id (nodes.set i m) := by
  have hset := unstamped_set id hi m
  rw [hthread] at hset
  exact (add_right_cancel hset).symm

end Nodes

/-- The connections there can be at most when all requests are served. -/
def capacity (s : ConnList) : ℕ := s.nodes.length + s.main.unserved + s.requests.length

/-- The balance of `available_len`. -/
def Balanced (s : ConnList) : Prop :=
  s.availableLen.toNat + owed s.nodes + s.unwritten.length + s.main.lent ≡
    s.nodes.length [MOD 2^32]

theorem toNat_add_one (a : UInt32) : (a + 1).toNat = (a.toNat + 1) % 2^32 := UInt32.toNat_add a 1

theorem toNat_sub_one (a : UInt32) : ((a - 1).toNat + 1) % 2^32 = a.toNat := by
  have h := toNat_add_one (a - 1)
  rw [UInt32.sub_add_cancel] at h
  exact h.symm

theorem Balanced.proceeds {s t : ConnList} {succeeds : Bool} (h : s.Balanced)
    (hstep : s.Proceeds succeeds t) : t.Balanced := by
  cases hstep with
  | stop hmain _ | refill hmain _ _ | search hmain _ _ | runOff hmain _ | passBusy hmain _ _
  | look hmain _ _ | passClosed hmain _ _ | choose hmain _ _ | refuse hmain _ | finish hmain _
  | passLost hmain _ _ | leave hmain _ _ =>
    rw [Balanced, hmain] at h
    exact h
  | connect hmain _ =>
    rw [Balanced, hmain] at h
    have havailable := toNat_add_one s.availableLen
    simp only [Balanced, Nat.ModEq, Main.lent, owed_connect, List.length_append,
      List.length_singleton] at h ⊢
    omega
  | @mark id i n hmain hi =>
    rw [Balanced, hmain] at h
    have howed := owed_set hi { n with busy := true }
    simp only [Balanced, Nat.ModEq, Main.lent, List.length_set] at h ⊢
    rwa [add_right_cancel howed]
  | lend hmain | withdraw hmain =>
    rw [Balanced, hmain] at h
    have havailable := toNat_sub_one s.availableLen
    simp only [Balanced, Nat.ModEq, Main.lent] at h ⊢
    omega
  | @send id i n hmain hi _ =>
    rw [Balanced, hmain] at h
    have howed := owed_set hi { n with flows := n.flows ++ [id] }
    rw [n.debt_send] at howed
    simp only [Balanced, Nat.ModEq, Main.lent, List.length_set] at h ⊢
    omega
  | @terminate i n hmain hi _ =>
    rw [Balanced, hmain] at h
    have howed := owed_set hi { n with flows := n.flows ++ [0] }
    rw [n.debt_send] at howed
    simp only [Balanced, Nat.ModEq, Main.lent, List.length_set] at h ⊢
    omega
  | lose hmain _ _ | abandon hmain _ _ =>
    rw [Balanced, hmain] at h
    simp only [Balanced, Nat.ModEq, Main.lent, List.length_append, List.length_singleton] at h ⊢
    omega

theorem Balanced.step {s t : ConnList} {a : Action} (h : s.Balanced) (hstep : s.step a = some t) :
    t.Balanced := by
  obtain ⟨succeeds,rfl,hmain⟩ | ⟨i,n,m,out,rfl,hi,hn,rfl⟩ | ⟨i,n,m,rfl,hi,hm,rfl⟩ := step_cases hstep
  · exact h.proceeds hmain
  · have howed := owed_set hi m
    have hdebt := hn.debt
    have havailable := s.availableLen_record out
    simp only [Balanced, Nat.ModEq, unwritten_record, main_record, List.length_set] at h ⊢
    omega
  · have howed := owed_set hi m
    have hdebt := Node.fail_debt hm
    simp only [Balanced, Nat.ModEq, List.length_set] at h ⊢
    omega

/-- While requests are generated, no more is owed than there are connections. -/
def Covered (s : ConnList) : Prop :=
  s.main.exits = false →
    owed s.nodes + s.unwritten.length + s.main.lent + s.main.reserved ≤ s.nodes.length

theorem Balanced.exact {s : ConnList} (h : s.Balanced) (hcovered : s.Covered)
    (hexits : s.main.exits = false) (hlength : s.nodes.length < 2^32) :
    s.availableLen.toNat + owed s.nodes + s.unwritten.length + s.main.lent = s.nodes.length := by
  have hle := hcovered hexits
  have hlt := s.availableLen.toNat_lt
  simp only [Balanced, Nat.ModEq] at h
  omega

theorem Covered.proceeds {s t : ConnList} {succeeds : Bool} (h : s.Covered) (hbalanced : s.Balanced)
    (hlength : s.nodes.length < 2^32) (hstep : s.Proceeds succeeds t) : t.Covered := by
  intro hexits
  cases hstep with
  | stop | finish | passLost | leave | withdraw | terminate | abandon => simp [Main.exits] at hexits
  | refill hmain _ _ | runOff hmain _ | passBusy hmain _ _ | look hmain _ _ | passClosed hmain _ _
  | choose hmain _ _ | refuse hmain _ | lend hmain =>
    have hle := h (by rw [hmain]; rfl)
    simp only [hmain, Main.lent, Main.reserved] at hle ⊢
    omega
  | search hmain _ havailable =>
    have hexact := hbalanced.exact h (by rw [hmain]; rfl) hlength
    have hpos : s.availableLen.toNat ≠ 0 := fun hzero => havailable (UInt32.toNat_inj.mp hzero)
    simp only [hmain, Main.lent, Main.reserved] at hexact ⊢
    omega
  | connect hmain _ =>
    have hle := h (by rw [hmain]; rfl)
    simp only [hmain, Main.lent, Main.reserved, owed_connect, List.length_append,
      List.length_singleton] at hle ⊢
    omega
  | @mark id i n hmain hi =>
    have hle := h (by rw [hmain]; rfl)
    have howed := owed_set hi { n with busy := true }
    simp only [hmain, Main.lent, Main.reserved, List.length_set] at hle ⊢
    rwa [add_right_cancel howed]
  | @send id i n hmain hi _ =>
    have hle := h (by rw [hmain]; rfl)
    have howed := owed_set hi { n with flows := n.flows ++ [id] }
    rw [n.debt_send] at howed
    simp only [hmain, Main.lent, Main.reserved, List.length_set] at hle ⊢
    omega
  | lose hmain _ _ =>
    have hle := h (by rw [hmain]; rfl)
    simp only [hmain, Main.lent, Main.reserved, List.length_append, List.length_singleton] at hle ⊢
    omega

theorem Covered.step {s t : ConnList} {a : Action} (h : s.Covered) (hbalanced : s.Balanced)
    (hlength : s.nodes.length < 2^32) (hstep : s.step a = some t) : t.Covered := by
  obtain ⟨succeeds,rfl,hmain⟩ | ⟨i,n,m,out,rfl,hi,hn,rfl⟩ | ⟨i,n,m,rfl,hi,hm,rfl⟩ := step_cases hstep
  · exact h.proceeds hbalanced hlength hmain
  · intro hexits
    have howed := owed_set hi m
    have hdebt := hn.debt
    rw [main_record] at hexits
    have hle := h hexits
    simp only [unwritten_record, main_record, List.length_set] at hle ⊢
    omega
  · intro hexits
    have howed := owed_set hi m
    have hdebt := Node.fail_debt hm
    have hle := h hexits
    simp only [List.length_set] at hle ⊢
    omega

theorem capacity_step {s t : ConnList} {a : Action} (hstep : s.step a = some t) :
    t.capacity ≤ s.capacity := by
  obtain ⟨succeeds,rfl,hmain⟩ | ⟨i,n,m,out,rfl,hi,hn,rfl⟩ | ⟨i,n,m,rfl,hi,hm,rfl⟩ := step_cases hstep
  · cases hmain <;> simp_all only [capacity, Main.unserved, List.length_append, List.length_set,
      List.length_cons, List.length_nil] <;> omega
  · simp [capacity]
  · simp [capacity]

/-- Every flow with the given ID that was started was counted, is on its way, or could not be
written. -/
def Conserved (id : UInt32) (s : ConnList) : Prop :=
  s.started.count id =
    s.counted.count id + inflight id s.nodes + s.unwritten.count id + s.main.unsent id

theorem Conserved.proceeds {s t : ConnList} {succeeds : Bool} {id : UInt32} (hid : id ≠ 0)
    (h : s.Conserved id) (hstep : s.Proceeds succeeds t) : t.Conserved id := by
  cases hstep with
  | stop hmain _ | refill hmain _ _ | search hmain _ _ | runOff hmain _ | passBusy hmain _ _
  | look hmain _ _ | passClosed hmain _ _ | choose hmain _ _ | refuse hmain _ | finish hmain _
  | passLost hmain _ _ | leave hmain _ _ | lend hmain | withdraw hmain =>
    rw [Conserved, hmain] at h
    exact h
  | connect hmain _ =>
    rw [Conserved, hmain] at h
    simpa only [Conserved, Main.unsent, inflight_connect] using h
  | @mark id' i n hmain hi =>
    rw [Conserved, hmain] at h
    have hinflight := inflight_set id hi { n with busy := true }
    have hsame := add_right_cancel hinflight
    simp only [Conserved, Main.unsent, List.count_append, List.count_singleton, beq_iff_eq] at h ⊢
    omega
  | @send id' i n hmain hi _ =>
    rw [Conserved, hmain] at h
    have hinflight := inflight_set id hi { n with flows := n.flows ++ [id'] }
    rw [n.inflight_send] at hinflight
    simp only [Conserved, Main.unsent] at h ⊢
    omega
  | @terminate i n hmain hi _ =>
    rw [Conserved, hmain] at h
    have hinflight := inflight_set id hi { n with flows := n.flows ++ [0] }
    rw [n.inflight_send, if_neg hid.symm] at hinflight
    simp only [Conserved, Main.unsent] at h ⊢
    omega
  | lose hmain _ _ =>
    rw [Conserved, hmain] at h
    simp only [Conserved, Main.unsent, List.count_append, List.count_singleton, beq_iff_eq] at h ⊢
    omega
  | abandon hmain _ _ =>
    rw [Conserved, hmain] at h
    simp only [Conserved, Main.unsent, List.count_append, List.count_singleton, beq_iff_eq,
      if_neg hid.symm] at h ⊢
    omega

theorem Conserved.step {s t : ConnList} {a : Action} {id : UInt32} (hid : id ≠ 0)
    (h : s.Conserved id) (hstep : s.step a = some t) : t.Conserved id := by
  obtain ⟨succeeds,rfl,hmain⟩ | ⟨i,n,m,out,rfl,hi,hn,rfl⟩ | ⟨i,n,m,rfl,hi,hm,rfl⟩ := step_cases hstep
  · exact h.proceeds hid hmain
  · have hinflight := inflight_set id hi m
    have hlost := hn.inflight hid
    simp only [Conserved, started_record, counted_record, unwritten_record, main_record,
      List.count_append] at h ⊢
    omega
  · have hinflight := inflight_set id hi m
    rw [Node.fail_inflight id hm] at hinflight
    simp only [Conserved] at h ⊢
    rwa [add_right_cancel hinflight]

/-- Every flow with the given ID that was counted has its stop time, or its thread is about to take
it. -/
def Stamped (id : UInt32) (s : ConnList) : Prop :=
  s.counted.count id = s.stopped.count id + unstamped id s.nodes

theorem Stamped.step {s t : ConnList} {a : Action} {id : UInt32} (h : s.Stamped id)
    (hstep : s.step a = some t) : t.Stamped id := by
  obtain ⟨succeeds,rfl,hmain⟩ | ⟨i,n,m,out,rfl,hi,hn,rfl⟩ | ⟨i,n,m,rfl,hi,hm,rfl⟩ := step_cases hstep
  · cases hmain with
    | connect => simpa only [Stamped, unstamped_connect] using h
    | @mark _ _ n _ hi | @send _ _ n _ hi | @terminate _ n _ hi =>
      refine h.trans (congrArg (s.stopped.count id + ·) ?_)
      exact unstamped_set_of_thread id hi _ rfl
    | _ => exact h
  · have hset := unstamped_set id hi m
    have hstamp := hn.unstamped id
    simp only [Stamped, counted_record, stopped_record, List.count_append] at h ⊢
    omega
  · have hset := unstamped_set id hi m
    rw [Node.fail_unstamped id hm] at hset
    simp only [Stamped] at h ⊢
    rwa [add_right_cancel hset]

/-- The requests are taken in order, and one without a connection is dropped. -/
theorem order_step {s t : ConnList} {a : Action} (hstep : s.step a = some t) :
    (t.started ++ t.main.unstarted.toList ++ t.requests).Sublist
      (s.started ++ s.main.unstarted.toList ++ s.requests) := by
  obtain ⟨succeeds,rfl,hmain⟩ | ⟨i,n,m,out,rfl,hi,hn,rfl⟩ | ⟨i,n,m,rfl,hi,hm,rfl⟩ := step_cases hstep
  · cases hmain <;> simp_all [Main.unstarted]
  · simp
  · exact List.Sublist.refl _

theorem nonzero_step {s t : ConnList} {a : Action} (h : 0 ∉ s.counted) (hstep : s.step a = some t) :
    0 ∉ t.counted := by
  obtain ⟨succeeds,rfl,hmain⟩ | ⟨i,n,m,out,rfl,hi,hn,rfl⟩ | ⟨i,n,m,rfl,hi,hm,rfl⟩ := step_cases hstep
  · cases hmain <;> exact h
  · cases hn with
    | count _ hid => simpa [record, hid.symm] using h
    | _ => exact h
  · exact h

theorem finished_step {s t : ConnList} {a : Action}
    (h : s.flowFinished = UInt32.ofNat s.counted.length) (hstep : s.step a = some t) :
    t.flowFinished = UInt32.ofNat t.counted.length := by
  obtain ⟨succeeds,rfl,hmain⟩ | ⟨i,n,m,out,rfl,hi,hn,rfl⟩ | ⟨i,n,m,rfl,hi,hm,rfl⟩ := step_cases hstep
  · cases hmain <;> exact h
  · change (s.record out).flowFinished = UInt32.ofNat (s.record out).counted.length
    rw [flowFinished_record, counted_record, h, List.length_append, UInt32.ofNat_add]
  · exact h

theorem taken_step {s t : ConnList} {a : Action} (h : s.main.exits = true → s.requests = [])
    (hstep : s.step a = some t) : t.main.exits = true → t.requests = [] := by
  obtain ⟨succeeds,rfl,hmain⟩ | ⟨i,n,m,out,rfl,hi,hn,rfl⟩ | ⟨i,n,m,rfl,hi,hm,rfl⟩ := step_cases hstep
  · cases hmain <;> simp_all [Main.exits]
  · simpa using h
  · exact h

/-- What the counters and the times of a run account for. -/
structure Accounted (n : ℕ) (requests : List UInt32) (s : ConnList) : Prop where
  balanced : s.Balanced
  capacity_le : s.capacity ≤ n + requests.length
  conserved : ∀ id ≠ 0, s.Conserved id
  stamped : ∀ id, s.Stamped id
  nonzero : 0 ∉ s.counted
  finished : s.flowFinished = UInt32.ofNat s.counted.length
  taken : s.main.exits = true → s.requests = []
  order : (s.started ++ s.main.unstarted.toList ++ s.requests).Sublist requests

theorem Accounted.length_le {n : ℕ} {requests : List UInt32} {s : ConnList}
    (h : s.Accounted n requests) : s.nodes.length ≤ n + requests.length := by
  have hle := h.capacity_le
  rw [capacity] at hle
  omega

theorem Accounted.step {n : ℕ} {requests : List UInt32} {s t : ConnList} {a : Action}
    (h : s.Accounted n requests) (hstep : s.step a = some t) : t.Accounted n requests where
  balanced := h.balanced.step hstep
  capacity_le := (capacity_step hstep).trans h.capacity_le
  conserved id hid := (h.conserved id hid).step hid hstep
  stamped id := (h.stamped id).step hstep
  nonzero := nonzero_step h.nonzero hstep
  finished := finished_step h.finished hstep
  taken := taken_step h.taken hstep
  order := (order_step hstep).trans h.order

theorem accounted_start (n : ℕ) (requests : List UInt32) :
    (start n requests).Accounted n requests := by
  have howed : owed (List.replicate n Node.new) = 0 := by
    simp [owed, Node.debt, Node.new, Thread.debt]
  have hinflight (id) : inflight id (List.replicate n Node.new) = 0 := by
    simp [inflight, Node.inflight, Node.new, Thread.pending]
  have hunstamped (id) : unstamped id (List.replicate n Node.new) = 0 := by
    simp [unstamped, Node.new, Thread.unstamped]
  constructor <;> simp [start, Balanced, Conserved, Stamped, capacity, Main.lent, Main.unserved,
    Main.unsent, Main.unstarted, Main.exits, howed, hinflight, hunstamped, Nat.ModEq]

theorem accounted_run {n : ℕ} {requests : List UInt32} {actions : List Action} {s : ConnList}
    (hrun : Runs.run step (start n requests) actions = some s) : s.Accounted n requests :=
  Runs.run_preserves (fun _ s => s.Accounted n requests) (accounted_start n requests)
    (fun _ _ _ _ h => h.step) actions s hrun

theorem covered_start (n : ℕ) (requests : List UInt32) : (start n requests).Covered := by
  intro _
  simp [start, owed, Node.debt, Node.new, Thread.debt, Main.lent, Main.reserved]

theorem covered_run {n : ℕ} {requests : List UInt32} (hbound : n + requests.length < 2^32)
    {actions : List Action} {s : ConnList}
    (hrun : Runs.run step (start n requests) actions = some s) : s.Covered := by
  refine (Runs.run_preserves (fun _ s => s.Accounted n requests ∧ s.Covered)
    ⟨accounted_start n requests,covered_start n requests⟩ ?_ actions s hrun).2
  rintro _ a s t ⟨hs,hcovered⟩ hstep
  exact ⟨hs.step hstep,hcovered.step hs.balanced (hs.length_le.trans_lt hbound) hstep⟩

/-- Every flow that was started was counted exactly once, is still on its way, or could not be
written; and every flow counted has its stop time, or is about to. -/
theorem flows_conserved (n : ℕ) (requests : List UInt32) (actions : List Action) (s : ConnList)
    (hrun : Runs.run step (start n requests) actions = some s) :
    (∀ id ≠ 0, s.started.count id =
      s.counted.count id + inflight id s.nodes + s.unwritten.count id + s.main.unsent id) ∧
    (∀ id, s.counted.count id = s.stopped.count id + unstamped id s.nodes) ∧
    0 ∉ s.counted ∧ s.flowFinished = UInt32.ofNat s.counted.length ∧
    s.started.Sublist requests := by
  have hs := accounted_run hrun
  refine ⟨hs.conserved,hs.stamped,hs.nonzero,hs.finished,?_⟩
  refine List.Sublist.trans ?_ hs.order
  rw [List.append_assoc]
  exact List.sublist_append_left _ _

/-- The first flow is counted and its stop time not yet taken, the second cannot be written. -/
theorem flows_conserved_two :
    let requests : List UInt32 := [1,2]
    let actions := List.replicate 6 (Action.main true) ++ List.replicate 3 (.listen 0) ++
      List.replicate 5 (Action.main true) ++ [.main false,.listen 0,.fail 0]
    ∃ s, Runs.run step (start 1 requests) (actions.take 9) = some s ∧ s.flowFinished = 1 ∧
      s.stopped = [] ∧ s.counted.count 1 = s.stopped.count 1 + unstamped 1 s.nodes ∧
    ∃ t, Runs.run step (start 1 requests) actions = some t ∧ t.unwritten = [2] ∧
      t.started.count 2 =
        t.counted.count 2 + inflight 2 t.nodes + t.unwritten.count 2 + t.main.unsent 2 := by
  intro requests actions
  have hfirst : (Runs.run step (start 1 requests) (actions.take 9)).map
      (fun s => (s.flowFinished,s.stopped)) = some (1,[]) := by
    decide +kernel
  have hall : (Runs.run step (start 1 requests) actions).map (·.unwritten) = some [2] := by
    decide +kernel
  obtain ⟨s,hs,hsame⟩ := Option.map_eq_some_iff.mp hfirst
  obtain ⟨hfinished,hstopped⟩ := Prod.mk.inj hsame
  obtain ⟨t,ht,hunwritten⟩ := Option.map_eq_some_iff.mp hall
  obtain ⟨-,hstamped,-⟩ := flows_conserved 1 requests _ s hs
  obtain ⟨hconserved,-⟩ := flows_conserved 1 requests actions t ht
  exact ⟨s,hs,hfinished,hstopped,hstamped 1,t,ht,hunwritten,hconserved 2 (by decide)⟩

end ConnList

end ConnectionPool
end SketchMonitor
