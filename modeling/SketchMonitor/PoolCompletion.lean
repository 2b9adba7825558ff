import SketchMonitor.PoolCounters

/-!
# Runs of the pool to their end

Every statement uses up some of a bounded amount of work, so every run ends. If no connection
fails, a connection without a debt lies ahead of the search of the main thread, so a new one is
opened only when none is available, and a run that cannot go on has counted every flow once and
closed every connection.
-/

namespace SketchMonitor
namespace ConnectionPool

open FiniteSums

/-- The statements a thread has left until it waits for a flow or ends. -/
def Thread.work : Thread → ℕ
  | reading => 3
  | finished _ => 6
  | counting _ => 5
  | stamping _ => 4
  | closing _ => 2
  | clearing _ => 1
  | ended _ => 0

def Node.work (n : Node) : ℕ := 4 * n.flows.length + n.thread.work

theorem Node.work_send (n : Node) (id : UInt32) :
    Node.work { n with flows := n.flows ++ [id] } = n.work + 4 := by
  simp only [work, List.length_append, List.length_singleton]
  omega

theorem Node.Listens.work_lt {n m : Node} {out : Event} (h : n.Listens m out) :
    m.work < n.work := by
  cases h <;> simp_all only [Node.work, Thread.work, List.length_cons] <;> omega

theorem Node.fail_work_lt {n m : Node} (h : n.fail = some m) : m.work < n.work := by
  obtain ⟨hthread,rfl⟩ := Runs.of_guard h
  simp only [work, hthread, Thread.work]
  omega

/-- A thread without a next statement waits for a flow or has ended. -/
theorem Node.listen_eq_none {n : Node} (h : n.listen = none) :
    n.thread = .reading ∧ n.flows = [] ∨ ∃ t, n.thread = .ended t := by
  rw [listen] at h
  split at h
  · cases h
  · rename_i hthread hflows
    exact .inl ⟨hthread,hflows⟩
  · cases h
  · split_ifs at h
  · cases h
  · cases h
  · cases h
  · rename_i t hthread
    exact .inr ⟨t,hthread⟩

namespace ConnList

/-- The statements the main thread has left for the current request or the end, if there can be
`capacity` connections. -/
def mainWork (capacity length : ℕ) : Main → ℕ
  | .idle => 7 * capacity + 3
  | .sending _ _ => 7 * capacity + 8
  | .marked _ _ => 7 * capacity + 9
  | .chosen _ _ => 7 * capacity + 10
  | .inserting _ => 7 * capacity + 14
  | .searching _ i => 7 * capacity + 15 + 2 * (capacity - i)
  | .checking _ i => 7 * capacity + 14 + 2 * (capacity - i)
  | .exiting i => 7 * (length - i) + 2
  | .leaving i => 7 * (length - i) + 1
  | .terminating i => 7 * (length - i)
  | .waiting => 0

/-- The amount of work left. -/
def work (s : ConnList) : ℕ :=
  s.requests.length * (2 * s.capacity + 13) + mainWork s.capacity s.nodes.length s.main +
    (s.nodes.map Node.work).sum

theorem work_lt_of {s t : ConnList} (hrequests : t.requests.length = s.requests.length)
    (hcapacity : t.capacity ≤ s.capacity)
    (hlt : mainWork t.capacity t.nodes.length t.main + (t.nodes.map Node.work).sum <
      mainWork s.capacity s.nodes.length s.main + (s.nodes.map Node.work).sum) :
    t.work < s.work := by
  have hmul : t.requests.length * (2 * t.capacity + 13) ≤
      s.requests.length * (2 * s.capacity + 13) := by
    rw [hrequests]
    exact Nat.mul_le_mul_left _ (by omega)
  rw [work, work]
  omega

theorem work_lt_take {s t : ConnList} {id : UInt32} (hmain : s.main = .idle)
    (hreq : s.requests = id :: t.requests) (hcapacity : t.capacity = s.capacity)
    (hnodes : t.nodes = s.nodes)
    (hlt : mainWork t.capacity t.nodes.length t.main ≤ 9 * s.capacity + 15) :
    t.work < s.work := by
  rw [work, work, hreq, List.length_cons, add_one_mul, hcapacity, hnodes, hmain, mainWork]
  rw [hcapacity, hnodes] at hlt
  omega

theorem work_lt_proceeds {s t : ConnList} {succeeds : Bool} (hstep : s.Proceeds succeeds t) :
    t.work < s.work := by
  cases hstep with
  | stop hmain hreq =>
    refine work_lt_of rfl (by simp [capacity, hmain, Main.unserved]) ?_
    simp only [hmain, mainWork, capacity, Main.unserved]
    omega
  | refill hmain hreq _ =>
    refine work_lt_take hmain hreq ?_ rfl ?_
    · simp only [capacity, hmain, hreq, Main.unserved, List.length_cons]
      omega
    · simp only [capacity, hmain, hreq, mainWork, Main.unserved, List.length_cons]
      omega
  | search hmain hreq _ =>
    refine work_lt_take hmain hreq ?_ rfl ?_
    · simp only [capacity, hmain, hreq, Main.unserved, List.length_cons]
      omega
    · simp only [capacity, hmain, hreq, mainWork, Main.unserved, List.length_cons]
      omega
  | runOff hmain hi | finish hmain hi =>
    refine work_lt_of rfl (by simp [capacity, hmain, Main.unserved]) ?_
    simp only [hmain, mainWork, capacity, Main.unserved]
    omega
  | passBusy hmain hi _ | look hmain hi _ | passClosed hmain hi _ | choose hmain hi _
  | passLost hmain hi _ | leave hmain hi _ =>
    have hlt := (List.getElem?_eq_some_iff.mp hi).1
    refine work_lt_of rfl (by simp [capacity, hmain, Main.unserved]) ?_
    simp only [hmain, mainWork, capacity, Main.unserved]
    omega
  | connect hmain _ =>
    have hnew : Node.new.work = 3 := rfl
    refine work_lt_of rfl (by simp [capacity, hmain, Main.unserved]) ?_
    simp only [hmain, mainWork, capacity, Main.unserved, List.length_append, List.length_singleton,
      List.map_append, List.sum_append, List.map_cons, List.map_nil, List.sum_singleton, hnew]
    omega
  | refuse hmain _ | lend hmain | lose hmain _ _ | withdraw hmain =>
    refine work_lt_of rfl (by simp [capacity, hmain, Main.unserved]) ?_
    simp only [hmain, mainWork, capacity, Main.unserved]
    omega
  | @mark id i n hmain hi =>
    have hwork := sum_map_set hi { n with busy := true } Node.work
    refine work_lt_of rfl (by simp [capacity, hmain, Main.unserved]) ?_
    simp only [hmain, mainWork, capacity, Main.unserved, List.length_set]
    rw [add_right_cancel hwork]
    omega
  | @send id i n hmain hi _ =>
    have hwork := sum_map_set hi { n with flows := n.flows ++ [id] } Node.work
    rw [n.work_send] at hwork
    refine work_lt_of rfl (by simp [capacity, hmain, Main.unserved]) ?_
    simp only [hmain, mainWork, capacity, Main.unserved, List.length_set]
    omega
  | @terminate i n hmain hi _ =>
    have hwork := sum_map_set hi { n with flows := n.flows ++ [0] } Node.work
    have hlt := (List.getElem?_eq_some_iff.mp hi).1
    rw [n.work_send] at hwork
    refine work_lt_of rfl (by simp [capacity, hmain, Main.unserved]) ?_
    simp only [hmain, mainWork, List.length_set]
    omega
  | abandon hmain hi _ =>
    have hlt := (List.getElem?_eq_some_iff.mp hi).1
    refine work_lt_of rfl (by simp [capacity, hmain, Main.unserved]) ?_
    simp only [hmain, mainWork]
    omega

theorem work_lt_step {s t : ConnList} {a : Action} (hstep : s.step a = some t) : t.work < s.work := by
  obtain ⟨succeeds,rfl,hmain⟩ | ⟨i,n,m,out,rfl,hi,hn,rfl⟩ | ⟨i,n,m,rfl,hi,hm,rfl⟩ := step_cases hstep
  · exact work_lt_proceeds hmain
  · have hwork := sum_map_set hi m Node.work
    have hlt := hn.work_lt
    refine work_lt_of (by simp) (by simp [capacity]) ?_
    simp only [capacity, main_record, requests_record, List.length_set]
    omega
  · have hwork := sum_map_set hi m Node.work
    have hlt := Node.fail_work_lt hm
    refine work_lt_of rfl (by simp [capacity]) ?_
    simp only [capacity, List.length_set]
    omega

end ConnList

/-- An established connection that is not busy and owes no flow. -/
structure Node.Free (n : Node) : Prop where
  busy : n.busy = false
  connected : n.connected = true
  flows : n.flows = []
  waits : n.thread = .reading ∨ ∃ id, n.thread = .stamping id

/-- What also holds if no connection fails. -/
structure Sound (r : Role) (n : Node) : Prop where
  healthy : n.thread.failed = false
  used : n.busy = true → n.flows ≠ [] ∨ n.thread.holdsFlow = true ∨ r = .marked
  sent : r = .past → 0 ∈ n.flows ∨ n.thread.terminated = true
  none_left : n.thread.terminated = true → n.flows = []

namespace Sound

theorem new : Sound .chosen Node.new := by
  constructor <;> simp [Node.new, Thread.failed, Thread.terminated]

theorem change {r r' : Role} {n : Node} (h : Sound r n) (hr : r ≠ .marked) (hr' : r' ≠ .past) :
    Sound r' n where
  __ := h
  used hbusy := by
    rcases h.used hbusy with hflows | hholds | hmarked
    · exact .inl hflows
    · exact .inr (.inl hholds)
    · exact absurd hmarked hr
  sent := by simp [hr']

theorem mark {n : Node} (h : Sound .chosen n) : Sound .marked { n with busy := true } where
  __ := h
  used _ := .inr (.inr rfl)
  sent := by simp

theorem send {n : Node} {id : UInt32} (h : Sound .marked n) (hlocal : Local .marked n) :
    Sound .away { n with flows := n.flows ++ [id] } where
  __ := h
  used _ := .inl (by simp)
  sent := by simp
  none_left hterminated := by simp [(hlocal.running (by simp)).2] at hterminated

theorem terminate {n : Node} (h : Sound .away n) (hlocal : Local .away n) :
    Sound .past { n with flows := n.flows ++ [0] } where
  __ := h
  used _ := .inl (by simp)
  sent _ := .inl (by simp)
  none_left hterminated := by simp [(hlocal.running (by simp)).2] at hterminated

/-- A connection that was not closed is established. -/
theorem connected {r : Role} {n : Node} (h : Sound r n) (hlocal : Local r n) (hr : r ≠ .past) :
    n.connected = true := by
  have hhealthy := h.healthy
  have hrunning := (hlocal.running hr).2
  rw [hlocal.connected_eq]
  cases hthread : n.thread <;> simp_all [Thread.failed, Thread.terminated, Thread.connected]

theorem listens {r : Role} {n m : Node} {out : Event} (h : Sound r n) (hlocal : Local r n)
    (hn : n.Listens m out) : Sound r m := by
  have hfew := hlocal.few
  obtain ⟨hhealthy,hused,hsent,_⟩ := h
  cases hn with
  | @read id flows hthread hflows =>
    rw [hflows] at hfew
    constructor
    · rfl
    · exact fun _ => .inr (.inl rfl)
    · intro hr
      have hmem : 0 = id ∨ 0 ∈ flows := by simpa [hflows, hthread, Thread.terminated] using hsent hr
      rcases hmem with rfl | hmem
      · exact .inr (by simp [Thread.terminated])
      · exact .inl hmem
    · intro hterminated
      obtain rfl : id = 0 := by simpa [Thread.terminated] using hterminated
      rcases hfew with hlength | ⟨id',hid,heq⟩
      · simpa using hlength
      · exact absurd (List.cons.inj heq).1.symm hid
  | free hthread | count hthread hid | terminate hthread | stamp hthread | close hthread
  | clear hthread =>
    constructor <;> simp_all [Thread.failed, Thread.holdsFlow, Thread.terminated]

/-- A node without a debt is free. -/
theorem free_of_debt_eq_zero {r : Role} {n : Node} (h : Sound r n) (hlocal : Local r n)
    (hr : r ≠ .marked) (hdebt : n.debt = 0) : n.Free := by
  obtain ⟨hflows,hthread⟩ := Nat.add_eq_zero_iff.mp hdebt
  have hhealthy := h.healthy
  have hempty : n.flows = [] := List.length_eq_zero_iff.mp hflows
  have hwaits : n.thread = .reading ∨ ∃ id, n.thread = .stamping id := by
    cases hn : n.thread <;> simp_all [Thread.debt, Thread.failed]
  refine ⟨?_,?_,hempty,hwaits⟩
  · by_contra hbusy
    have hused := h.used (by simpa using hbusy)
    rcases hwaits with hn | ⟨id,hn⟩ <;> simp [hempty, hn, Thread.holdsFlow, hr] at hused
  · rw [hlocal.connected_eq]
    rcases hwaits with hn | ⟨id,hn⟩ <;> rw [hn] <;> rfl

end Sound

/-- The node the main thread is at. -/
def Main.target : Main → Option ℕ
  | .checking _ i | .chosen _ i | .marked _ i | .sending _ i | .leaving i | .terminating i => some i
  | _ => none

namespace ConnList

/-- What holds if no connection fails. -/
structure Healthy (s : ConnList) : Prop where
  nodes : AllAt Sound s.main.role s.nodes
  target : ∀ i, s.main.target = some i → i < s.nodes.length
  ahead : ∀ id i, s.main = .searching id i → ∃ k n, i ≤ k ∧ s.nodes[k]? = some n ∧ n.debt = 0

/-- If fewer flows are owed than there are nodes, some node owes none. -/
theorem exists_debt_eq_zero {nodes : List Node} (h : owed nodes < nodes.length) :
    ∃ (k : ℕ) (n : Node), nodes[k]? = some n ∧ n.debt = 0 := by
  by_contra hall
  push Not at hall
  refine h.not_ge ?_
  rw [owed, ← List.length_map (f := Node.debt)]
  refine List.length_le_sum_of_one_le _ fun d hd => ?_
  obtain ⟨n,hn,rfl⟩ := List.mem_map.mp hd
  obtain ⟨k,hk⟩ := List.mem_iff_getElem?.mp hn
  exact Nat.one_le_iff_ne_zero.mpr (hall k n hk)

theorem Healthy.proceeds {s t : ConnList} (h : s.Healthy) (horderly : s.Orderly)
    (hbalanced : s.Balanced) (hcovered : s.Covered) (hlength : s.nodes.length < 2^32)
    (hstep : s.Proceeds true t) : t.Healthy := by
  have hlocal := horderly.nodes
  obtain ⟨hnodes,htarget,hahead⟩ := h
  cases hstep with
  | stop hmain _ =>
    rw [hmain] at hnodes
    refine ⟨fun k n hk => ?_,by simp [Main.target],by simp⟩
    simpa [Main.role] using hnodes k n hk
  | refill hmain _ _ =>
    rw [hmain] at hnodes
    exact ⟨hnodes,by simp [Main.target],by simp⟩
  | search hmain _ havailable =>
    rw [hmain] at hnodes
    refine ⟨hnodes,by simp [Main.target],fun id i heq => ?_⟩
    have hexact := hbalanced.exact hcovered (by rw [hmain]; rfl) hlength
    have hpos : s.availableLen.toNat ≠ 0 := fun hzero => havailable (UInt32.toNat_inj.mp hzero)
    have hlt : owed s.nodes < s.nodes.length := by omega
    obtain ⟨k,n,hk,hdebt⟩ := exists_debt_eq_zero hlt
    obtain ⟨rfl,rfl⟩ := Main.searching.inj heq
    exact ⟨k,n,Nat.zero_le k,hk,hdebt⟩
  | runOff hmain hi =>
    obtain ⟨k,n,hik,hk,-⟩ := hahead _ _ hmain
    have hlt := (List.getElem?_eq_some_iff.mp hk).1
    have hle := List.getElem?_eq_none_iff.mp hi
    omega
  | @passBusy id i n hmain hi hbusy =>
    rw [hmain] at hnodes hlocal
    refine ⟨hnodes,by simp [Main.target],fun id' i' heq => ?_⟩
    obtain ⟨rfl,rfl⟩ := Main.searching.inj heq
    obtain ⟨k,m,hik,hk,hdebt⟩ := hahead _ _ hmain
    refine ⟨k,m,?_,hk,hdebt⟩
    rcases hik.eq_or_lt with rfl | hlt
    · obtain rfl := Option.some.inj (hi.symm.trans hk)
      have hfree := (hnodes i n hi).free_of_debt_eq_zero (hlocal i n hi) (by simp [Main.role]) hdebt
      simp [hfree.busy] at hbusy
    · exact hlt
  | @look id i n hmain hi _ =>
    rw [hmain] at hnodes
    refine ⟨hnodes.change i (fun k hk => by simp [Main.role, hk]) fun m hm hsound => ?_,?_,by simp⟩
    · have hchanged : Sound .checking m := hsound.change (by simp [Main.role]) (by simp)
      simpa [Main.role] using hchanged
    · rintro j hj
      obtain rfl := Option.some.inj hj
      exact (List.getElem?_eq_some_iff.mp hi).1
  | @passClosed id i n hmain hi hconnected =>
    rw [hmain] at hnodes hlocal
    have htrue := (hnodes i n hi).connected (hlocal i n hi) (by simp [Main.role])
    simp [hconnected] at htrue
  | @choose id i n hmain hi _ =>
    rw [hmain] at hnodes
    refine ⟨hnodes.change i (fun k hk => by simp [Main.role, hk]) fun m hm hsound => ?_,?_,by simp⟩
    · have hchanged : Sound .chosen m := hsound.change (by simp [Main.role]) (by simp)
      simpa [Main.role] using hchanged
    · rintro j hj
      obtain rfl := Option.some.inj hj
      exact (List.getElem?_eq_some_iff.mp hi).1
  | connect hmain _ =>
    rw [hmain] at hnodes
    refine ⟨hnodes.concat (fun k hk => by simp [Main.role, hk.ne]) ?_,?_,by simp⟩
    · simpa [Main.role] using Sound.new
    · rintro j hj
      obtain rfl := Option.some.inj hj
      simp
  | refuse _ hsucceeds | lose _ _ hsucceeds | abandon _ _ hsucceeds => cases hsucceeds
  | @mark id i n hmain hi =>
    rw [hmain] at hnodes
    refine ⟨hnodes.set (fun k hk => by simp [Main.role, hk]) hi fun hsound => ?_,?_,by simp⟩
    · simp only [Main.role, ↓reduceIte] at hsound ⊢
      exact hsound.mark
    · rintro j hj
      obtain rfl := Option.some.inj hj
      simpa using (List.getElem?_eq_some_iff.mp hi).1
  | lend hmain =>
    rw [hmain] at hnodes htarget
    exact ⟨hnodes,htarget,by simp⟩
  | @send id i n hmain hi _ =>
    rw [hmain] at hnodes hlocal
    refine ⟨hnodes.set (fun k hk => by simp [Main.role, hk]) hi fun hsound => ?_,
      by simp [Main.target],by simp⟩
    have hmarked := hlocal i n hi
    simp only [Main.role, ↓reduceIte] at hsound hmarked
    exact hsound.send hmarked
  | @finish i hmain hi =>
    rw [hmain] at hnodes
    refine ⟨fun k n hk => ?_,by simp [Main.target],by simp⟩
    have hlt := (List.getElem?_eq_some_iff.mp hk).1
    have hsound := hnodes k n hk
    rwa [Main.role, if_pos (hlt.trans_le (List.getElem?_eq_none_iff.mp hi))] at hsound
  | @passLost i n hmain hi hconnected =>
    rw [hmain] at hnodes hlocal
    have htrue := (hnodes i n hi).connected (hlocal i n hi) (by simp [Main.role])
    simp [hconnected] at htrue
  | @leave i n hmain hi _ =>
    rw [hmain] at hnodes
    refine ⟨hnodes,?_,by simp⟩
    rintro j hj
    obtain rfl := Option.some.inj hj
    exact (List.getElem?_eq_some_iff.mp hi).1
  | withdraw hmain =>
    rw [hmain] at hnodes htarget
    exact ⟨hnodes,htarget,by simp⟩
  | @terminate i n hmain hi _ =>
    rw [hmain] at hnodes hlocal
    refine ⟨hnodes.set (fun k hk => Main.role_exiting_succ hk) hi fun hsound => ?_,
      by simp [Main.target],by simp⟩
    have haway := hlocal i n hi
    simp only [Main.role, lt_irrefl, ↓reduceIte] at hsound haway
    simpa [Main.role] using hsound.terminate haway

theorem Healthy.listens {s : ConnList} {i : ℕ} {n m : Node} {out : Event} (h : s.Healthy)
    (hlocal : AllAt Local s.main.role s.nodes) (hi : s.nodes[i]? = some n) (hn : n.Listens m out) :
    ({ s.record out with nodes := s.nodes.set i m } : ConnList).Healthy := by
  have hmain := s.main_record out
  refine ⟨?_,?_,?_⟩
  · simp only [hmain]
    exact h.nodes.set (fun _ _ => rfl) hi fun hsound => hsound.listens (hlocal i n hi) hn
  · simpa only [hmain, List.length_set] using h.target
  · intro id j hj
    obtain ⟨k,l,hjk,hk,hdebt⟩ := h.ahead id j (hmain.symm.trans hj)
    by_cases hki : i = k
    · subst hki
      obtain rfl := Option.some.inj (hi.symm.trans hk)
      have hlt := (List.getElem?_eq_some_iff.mp hi).1
      have heq := hn.debt
      exact ⟨i,m,hjk,by simp [hlt],by omega⟩
    · exact ⟨k,l,hjk,by simp only [List.getElem?_set_ne hki, hk],hdebt⟩

end ConnList

/-- No connection fails, new ones are established, and requests are written. -/
def Action.Succeeds : Action → Prop
  | .main succeeds => succeeds = true
  | .listen _ => True
  | .fail _ => False

namespace ConnList

/-- What holds in a run without failures. -/
structure Smooth (n : ℕ) (requests : List UInt32) (s : ConnList) : Prop where
  orderly : s.Orderly
  accounted : s.Accounted n requests
  covered : s.Covered
  healthy : s.Healthy
  order : s.started ++ s.main.unstarted.toList ++ s.requests = requests
  written : s.unwritten = []

section Smooth

variable {n : ℕ} {requests : List UInt32} {s t : ConnList} {a : Action}

theorem order_eq_step (ha : a.Succeeds) (hstep : s.step a = some t) :
    t.started ++ t.main.unstarted.toList ++ t.requests =
      s.started ++ s.main.unstarted.toList ++ s.requests := by
  obtain ⟨succeeds,rfl,hmain⟩ | ⟨i,n,m,out,rfl,hi,hn,rfl⟩ | ⟨i,n,m,rfl,hi,hm,rfl⟩ := step_cases hstep
  · obtain rfl : succeeds = true := ha
    cases hmain <;> simp_all [Main.unstarted]
  · simp
  · exact ha.elim

theorem written_step (ha : a.Succeeds) (h : s.unwritten = []) (hstep : s.step a = some t) :
    t.unwritten = [] := by
  obtain ⟨succeeds,rfl,hmain⟩ | ⟨i,n,m,out,rfl,hi,hn,rfl⟩ | ⟨i,n,m,rfl,hi,hm,rfl⟩ := step_cases hstep
  · obtain rfl : succeeds = true := ha
    cases hmain with
    | lose _ _ hsucceeds | abandon _ _ hsucceeds => cases hsucceeds
    | _ => exact h
  · simpa using h
  · exact ha.elim

theorem Smooth.step (h : s.Smooth n requests) (hbound : n + requests.length < 2^32)
    (ha : a.Succeeds) (hstep : s.step a = some t) : t.Smooth n requests := by
  have hlength := h.accounted.length_le.trans_lt hbound
  have hhealthy : t.Healthy := by
    obtain ⟨succeeds,rfl,hmain⟩ | ⟨i,n,m,out,rfl,hi,hn,rfl⟩ | ⟨i,n,m,rfl,hi,hm,rfl⟩ :=
      step_cases hstep
    · obtain rfl : succeeds = true := ha
      exact h.healthy.proceeds h.orderly h.accounted.balanced h.covered hlength hmain
    · exact h.healthy.listens h.orderly.nodes hi hn
    · exact ha.elim
  exact {
    orderly := h.orderly.step hstep
    accounted := h.accounted.step hstep
    covered := h.covered.step h.accounted.balanced hlength hstep
    healthy := hhealthy
    order := (order_eq_step ha hstep).trans h.order
    written := written_step ha h.written hstep }

theorem smooth_start (n : ℕ) (hids : 0 ∉ requests) : (start n requests).Smooth n requests where
  orderly := orderly_start n hids
  accounted := accounted_start n requests
  covered := covered_start n requests
  healthy := by
    refine ⟨fun i x hx => ?_,by simp [start, Main.target],by simp [start]⟩
    obtain rfl := List.eq_of_mem_replicate (List.mem_of_getElem? hx)
    exact Sound.new.change (by simp) (by simp [start, Main.role])
  order := rfl
  written := rfl

theorem smooth_run (hids : 0 ∉ requests) (hbound : n + requests.length < 2^32)
    {actions : List Action} (hactions : ∀ a ∈ actions, a.Succeeds)
    (hrun : Runs.run step (start n requests) actions = some s) : s.Smooth n requests :=
  Runs.run_preserves_of Action.Succeeds (fun s => s.Smooth n requests) (smooth_start n hids)
    (fun _ _ _ ha hs => hs.step hbound ha) actions hactions s hrun

/-- Every flow was counted once and has its stop time, and every connection was closed by the special
flow ID. -/
structure Complete (requests : List UInt32) (s : ConnList) : Prop where
  waiting : s.main = .waiting
  closed : ∀ node ∈ s.nodes, node = ⟨false,false,[],.ended true⟩
  available : s.availableLen = 0
  started : s.started = requests
  counted : s.counted.Perm requests
  stopped : s.stopped.Perm requests
  finished : s.flowFinished = UInt32.ofNat requests.length

theorem main_stuck (htarget : ∀ i, s.main.target = some i → i < s.nodes.length)
    (h : s.stepMain true = none) : s.main = .waiting := by
  rw [stepMain] at h
  cases hmain : s.main with
  | waiting => rfl
  | checking id i | chosen id i | sending id i | terminating i =>
    have hlt := htarget i (by rw [hmain]; rfl)
    simp [hmain, hlt] at h
  | idle => cases hreq : s.requests <;> simp [hmain, hreq] at h
  | searching id i | exiting i => cases hi : s.nodes[i]? <;> simp [hmain, hi] at h
  | inserting id | marked id i | leaving i => simp [hmain] at h

theorem owed_closed {nodes : List Node}
    (h : ∀ node ∈ nodes, node = ⟨false,false,[],.ended true⟩) : owed nodes = nodes.length := by
  obtain hnodes := List.eq_replicate_of_mem h
  rw [hnodes]
  simp [owed, Node.debt, Thread.debt]

theorem inflight_closed {nodes : List Node} (id : UInt32)
    (h : ∀ node ∈ nodes, node = ⟨false,false,[],.ended true⟩) : inflight id nodes = 0 := by
  obtain hnodes := List.eq_replicate_of_mem h
  rw [hnodes]
  simp [inflight, Node.inflight, Thread.pending]

theorem unstamped_closed {nodes : List Node} (id : UInt32)
    (h : ∀ node ∈ nodes, node = ⟨false,false,[],.ended true⟩) : unstamped id nodes = 0 := by
  obtain hnodes := List.eq_replicate_of_mem h
  rw [hnodes]
  simp [unstamped, Thread.unstamped]

theorem Smooth.closed (h : s.Smooth n requests) (hwaiting : s.main = .waiting)
    (hstuck : ∀ i, s.step (.listen i) = none) :
    ∀ node ∈ s.nodes, node = ⟨false,false,[],.ended true⟩ := by
  intro node hnode
  obtain ⟨i,hi⟩ := List.mem_iff_getElem?.mp hnode
  have hlocal := h.orderly.nodes i node hi
  have hsound := h.healthy.nodes i node hi
  have hlisten : node.listen = none := by
    have hnone := hstuck i
    rw [ConnList.step, hi] at hnone
    simpa using hnone
  have hsent := hsound.sent (by rw [hwaiting]; rfl)
  rcases Node.listen_eq_none hlisten with ⟨hthread,hflows⟩ | ⟨t,hthread⟩
  · simp [hthread, hflows, Thread.terminated] at hsent
  · have hterminated : t = true := by simpa [hthread, Thread.failed] using hsound.healthy
    have hflows := hsound.none_left (by simp [hthread, Thread.terminated, hterminated])
    have hconnected : node.connected = false := by rw [hlocal.connected_eq, hthread]; rfl
    have hbusy : node.busy = false := by
      by_contra hbusy
      have hused := hsound.used (by simpa using hbusy)
      simp [hflows, hthread, Thread.holdsFlow, hwaiting, Main.role] at hused
    cases node
    simp_all

theorem Smooth.complete (h : s.Smooth n requests) (hids : 0 ∉ requests)
    (hstuck : ∀ a, a.Succeeds → s.step a = none) : s.Complete requests := by
  have hwaiting := main_stuck h.healthy.target (hstuck (.main true) rfl)
  have hclosed := h.closed hwaiting fun i => hstuck (.listen i) trivial
  have hstarted : s.started = requests := by
    have horder := h.order
    rw [h.accounted.taken (by rw [hwaiting]; rfl), hwaiting] at horder
    simpa [Main.unstarted] using horder
  have hcounted : s.counted.Perm requests := by
    refine List.perm_iff_count.mpr fun id => ?_
    by_cases hid : id = 0
    · rw [hid, List.count_eq_zero.mpr h.accounted.nonzero, List.count_eq_zero.mpr hids]
    · have hconserved := h.accounted.conserved id hid
      rw [Conserved, inflight_closed id hclosed, h.written, hwaiting, hstarted] at hconserved
      exact hconserved.symm
  have hstopped : s.stopped.Perm s.counted := by
    refine List.perm_iff_count.mpr fun id => ?_
    have hstamped := h.accounted.stamped id
    rw [Stamped, unstamped_closed id hclosed] at hstamped
    exact hstamped.symm
  have havailable : s.availableLen = 0 := by
    have hbalanced := h.accounted.balanced
    have hlt := s.availableLen.toNat_lt
    rw [Balanced, owed_closed hclosed, h.written, hwaiting, Nat.ModEq] at hbalanced
    simp only [Main.lent, List.length_nil] at hbalanced
    refine UInt32.toNat_inj.mp ?_
    rw [UInt32.toNat_zero]
    omega
  refine ⟨hwaiting,hclosed,havailable,hstarted,hcounted,hstopped.trans hcounted,?_⟩
  rw [h.accounted.finished, hcounted.length_eq]

theorem work_start (n : ℕ) (requests : List UInt32) : (start n requests).work =
    requests.length * (2 * (n + requests.length) + 13) + 7 * (n + requests.length) + 3 + 3 * n := by
  simp [work, start, capacity, mainWork, Main.unserved, Node.work, Node.new, Thread.work]
  ring

end Smooth

/-- If no connection fails, a free connection lies ahead of the search whenever `search_conn_list`
walks the list. So the search succeeds, and a connection is opened only after `available_len` was
read as 0. -/
theorem search_finds (n : ℕ) (requests : List UInt32) (hids : 0 ∉ requests)
    (hbound : n + requests.length < 2^32) (actions : List Action)
    (hactions : ∀ a ∈ actions, a.Succeeds) (s : ConnList)
    (hrun : Runs.run step (start n requests) actions = some s) :
    (∀ id i, s.main = .searching id i → ∃ k node, i ≤ k ∧ s.nodes[k]? = some node ∧ node.Free) ∧
    ∀ a t id, s.step a = some t → t.main = .inserting id → s.main ≠ .inserting id →
      s.main = .idle ∧ s.availableLen = 0 := by
  have hs := smooth_run hids hbound hactions hrun
  constructor
  · intro id i hmain
    obtain ⟨k,node,hik,hk,hdebt⟩ := hs.healthy.ahead id i hmain
    exact ⟨k,node,hik,hk,(hs.healthy.nodes k node hk).free_of_debt_eq_zero
      (hs.orderly.nodes k node hk) (by simp [hmain, Main.role]) hdebt⟩
  · intro a t id hstep hinsert hbefore
    obtain ⟨succeeds,rfl,hmain⟩ | ⟨i,n,m,out,rfl,hi,hn,rfl⟩ | ⟨i,n,m,rfl,hi,hm,rfl⟩ :=
      step_cases hstep
    · cases hmain with
      | refill hmain _ havailable => exact ⟨hmain,havailable⟩
      | runOff hmain hi =>
        obtain ⟨k,node,hik,hk,-⟩ := hs.healthy.ahead _ _ hmain
        have hlt := (List.getElem?_eq_some_iff.mp hk).1
        have hle := List.getElem?_eq_none_iff.mp hi
        omega
      | _ => cases hinsert
    · exact absurd ((s.main_record out).symm.trans hinsert) hbefore
    · exact absurd hinsert hbefore

theorem search_finds_second :
    let requests : List UInt32 := [1,2]
    let actions := List.replicate 8 (Action.main true)
    (∀ a ∈ actions, a.Succeeds) ∧ ∃ s, Runs.run step (start 2 requests) actions = some s ∧
      s.main = .searching 2 1 ∧ ∃ k node, 1 ≤ k ∧ s.nodes[k]? = some node ∧ node.Free := by
  intro requests actions
  have hactions : ∀ a ∈ actions, a.Succeeds := by simp [actions, Action.Succeeds]
  have hrun : (Runs.run step (start 2 requests) actions).map (·.main) = some (.searching 2 1) := by
    decide +kernel
  obtain ⟨s,hs,hmain⟩ := Option.map_eq_some_iff.mp hrun
  exact ⟨hactions,s,hs,hmain,
    (search_finds 2 requests (by decide) (by decide) actions hactions s hs).1 2 1 hmain⟩

/-- A run without failures ends, with every flow counted once and every connection closed, and can
always be continued to that end. -/
theorem pool_completes (n : ℕ) (requests : List UInt32) (hids : 0 ∉ requests)
    (hbound : n + requests.length < 2^32) (actions : List Action)
    (hactions : ∀ a ∈ actions, a.Succeeds) (s : ConnList)
    (hrun : Runs.run step (start n requests) actions = some s) :
    actions.length ≤ requests.length * (2 * (n + requests.length) + 13) + 7 * (n + requests.length) +
      3 + 3 * n ∧
    ((∀ a, a.Succeeds → s.step a = none) → s.Complete requests) ∧
    ∃ more t, (∀ a ∈ more, a.Succeeds) ∧ Runs.run step s more = some t ∧ t.Complete requests := by
  have hs := smooth_run hids hbound hactions hrun
  refine ⟨?_,hs.complete hids,?_⟩
  · have hlength := Runs.run_length_le (fun _ _ _ => work_lt_step) actions _ s hrun
    rw [work_start] at hlength
    omega
  · refine Runs.exists_run_to (fun _ _ _ => work_lt_step) Action.Succeeds
      (fun s => s.Smooth n requests) (fun s => s.Complete requests)
      (fun _ _ _ ha hs => hs.step hbound ha) ?_ s hs
    intro s hs hgoal
    by_contra hstuck
    push Not at hstuck
    exact hgoal (hs.complete hids fun a ha => by simpa using hstuck a ha)

theorem pool_completes_race :
    let requests : List UInt32 := [1,2]
    let actions := List.replicate 6 (Action.main true) ++ [.listen 0,.listen 0] ++
      List.replicate 5 (Action.main true)
    (∀ a ∈ actions, a.Succeeds) ∧ ∃ s, Runs.run step (start 1 requests) actions = some s ∧
      ∃ more t, (∀ a ∈ more, a.Succeeds) ∧ Runs.run step s more = some t ∧ t.Complete requests := by
  intro requests actions
  have hactions : ∀ a ∈ actions, a.Succeeds := by simp [actions, Action.Succeeds]
  have hrun : (Runs.run step (start 1 requests) actions).isSome := by decide +kernel
  obtain ⟨s,hs⟩ := Option.isSome_iff_exists.mp hrun
  obtain ⟨-,-,hmore⟩ :=
    pool_completes 1 requests (by decide) (by decide) actions hactions s hs
  exact ⟨hactions,s,hs,hmore⟩

end ConnList

end ConnectionPool
end SketchMonitor
