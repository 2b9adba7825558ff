import SketchMonitor.FlowProtocol

/-!
# Every run of the flow protocol

What a connection comes to is a function of the bytes on their way: `served` is what the
server will answer to a stream and `heard` which flows the client will finish. Every call
keeps this outcome, however the streams are cut, and losing the connection cuts it short.
So the finished flows are always the first ones asked for. A measure falls with every call,
and as long as a flow is missing some call is possible.
-/

namespace SketchMonitor
namespace FlowProtocol

/-- The response to a request. -/
def FlowMetadata.response (f : FlowMetadata) : List UInt8 :=
  f.encode ++ List.replicate f.size.toNat 0

/-- What the server writes for a stream of requests. -/
def served (input : List UInt8) : List UInt8 :=
  if metadataSize ≤ input.length then
    (FlowMetadata.decode (input.take metadataSize)).response ++ served (input.drop metadataSize)
  else []
termination_by input.length
decreasing_by simp [metadataSize] at *; omega

/-- The flows that a stream of responses finishes, up to the one that terminates. -/
def heard (input : List UInt8) : List FlowMetadata :=
  if metadataSize ≤ input.length then
    let flow := FlowMetadata.decode (input.take metadataSize)
    if flow.size.toNat ≤ (input.drop metadataSize).length then
      flow :: if flow.id = 0 then [] else heard ((input.drop metadataSize).drop flow.size.toNat)
    else []
  else []
termination_by input.length
decreasing_by simp [metadataSize] at *; omega

/-- The same when the metadata have been read and `count` bytes of the flow are missing. -/
def heardFlow (flow : FlowMetadata) (count : ℕ) (input : List UInt8) : List FlowMetadata :=
  if count ≤ input.length then flow :: if flow.id = 0 then [] else heard (input.drop count) else []

/-- The flows asked for, up to the one that terminates the connection. -/
def asked : List FlowMetadata → List FlowMetadata
  | [] => []
  | f :: fs => f :: if f.id = 0 then [] else asked fs

theorem served_of_lt {input : List UInt8} (h : input.length < metadataSize) : served input = [] := by
  rw [served, if_neg h.not_ge]

theorem served_append {v : List UInt8} (w : List UInt8) (hv : v.length = metadataSize) :
    served (v ++ w) = (FlowMetadata.decode v).response ++ served w := by
  rw [served, if_pos (by rw [List.length_append]; omega), List.take_left' hv, List.drop_left' hv]

theorem heard_of_lt {input : List UInt8} (h : input.length < metadataSize) : heard input = [] := by
  rw [heard, if_neg h.not_ge]

theorem heard_append {v : List UInt8} (w : List UInt8) (hv : v.length = metadataSize) :
    heard (v ++ w) = heardFlow (FlowMetadata.decode v) (FlowMetadata.decode v).size.toNat w := by
  rw [heard, if_pos (by rw [List.length_append]; omega), List.take_left' hv, List.drop_left' hv]
  rfl

theorem heardFlow_append {flow : FlowMetadata} {count : ℕ} {v : List UInt8} (w : List UInt8)
    (hv : v.length ≤ count) : heardFlow flow count (v ++ w) = heardFlow flow (count - v.length) w := by
  have hle : count ≤ (v ++ w).length ↔ count - v.length ≤ w.length := by
    rw [List.length_append]
    omega
  have hdrop : (v ++ w).drop count = w.drop (count - v.length) := by
    rw [List.drop_append, List.drop_eq_nil_of_le hv, List.nil_append]
  simp only [heardFlow, hle, hdrop]

theorem heardFlow_isPrefix_of {flow : FlowMetadata} {count : ℕ} {s t : List UInt8} (h : s <+: t)
    (hrest : heard (s.drop count) <+: heard (t.drop count)) :
    heardFlow flow count s <+: heardFlow flow count t := by
  rw [heardFlow, heardFlow]
  by_cases hle : count ≤ s.length
  · rw [if_pos hle, if_pos (hle.trans h.length_le), List.prefix_cons_inj]
    split_ifs
    · exact List.prefix_rfl
    · exact hrest
  · rw [if_neg hle]
    exact List.nil_prefix

/-- A truncated stream finishes the first of the flows. -/
theorem heard_isPrefix {s t : List UInt8} (h : s <+: t) : heard s <+: heard t := by
  induction hn : s.length using Nat.strong_induction_on generalizing s t with
  | h n ih =>
    by_cases hlen : s.length < metadataSize
    · rw [heard_of_lt hlen]
      exact List.nil_prefix
    · obtain ⟨rest,rfl⟩ := h
      have hv : (s.take metadataSize).length = metadataSize := by
        rw [List.length_take]
        omega
      have hpos : 0 < metadataSize := by decide
      rw [← List.take_append_drop metadataSize s, List.append_assoc, heard_append _ hv,
        heard_append _ hv]
      refine heardFlow_isPrefix_of (List.prefix_append _ _) ?_
      refine ih _ ?_ ((List.prefix_append _ _).drop _) rfl
      rw [List.length_drop, List.length_drop]
      omega

theorem heardFlow_isPrefix {flow : FlowMetadata} {count : ℕ} {s t : List UInt8} (h : s <+: t) :
    heardFlow flow count s <+: heardFlow flow count t :=
  heardFlow_isPrefix_of h (heard_isPrefix (h.drop count))

theorem served_requests (fs : List FlowMetadata) :
    served (fs.flatMap FlowMetadata.encode) = fs.flatMap FlowMetadata.response := by
  induction fs with
  | nil => exact served_of_lt (by simp)
  | cons f fs ih =>
    rw [List.flatMap_cons, List.flatMap_cons, served_append _ f.length_encode,
      FlowMetadata.decode_encode, ih]

theorem heard_responses (fs : List FlowMetadata) : heard (fs.flatMap FlowMetadata.response) = asked fs := by
  induction fs with
  | nil => exact heard_of_lt (by simp)
  | cons f fs ih =>
    rw [List.flatMap_cons, FlowMetadata.response, List.append_assoc, heard_append _ f.length_encode,
      FlowMetadata.decode_encode, heardFlow_append _ (by simp), List.length_replicate, Nat.sub_self,
      heardFlow, if_pos (Nat.zero_le _), List.drop_zero, ih]
    rfl

/-- What the server has still to write if the given bytes still reach it. -/
def Server.rest : Server → List UInt8 → List UInt8
  | .readMetadata buf, input => served (buf ++ input)
  | .writeMetadata flow left, input => left ++ (List.replicate flow.size.toNat 0 ++ served input)
  | .writeFlow _ count, input => List.replicate count 0 ++ served input
  | .closed, _ => []

/-- The flows that the listener will still finish if it reads the given bytes. -/
def Listener.rest : Listener → List UInt8 → List FlowMetadata
  | .readMetadata buf, input => heard (buf ++ input)
  | .readFlow flow count, input => heardFlow flow count input
  | .closed, _ => []

/-- The call that the server is in has not come to its end. -/
def Server.Waiting : Server → Prop
  | .readMetadata buf => buf.length < metadataSize
  | .writeMetadata _ left => left ≠ []
  | .writeFlow _ count => 0 < count
  | .closed => True

def Listener.Waiting : Listener → Prop
  | .readMetadata buf => buf.length < metadataSize
  | .readFlow _ count => 0 < count
  | .closed => True

namespace Server

theorem sent_waiting (flow : FlowMetadata) (count : ℕ) : (sent flow count).Waiting := by
  rw [sent]
  split_ifs with h
  · exact (by decide : 0 < metadataSize)
  · exact Nat.pos_of_ne_zero h

theorem echoed_waiting (flow : FlowMetadata) (left : List UInt8) : (echoed flow left).Waiting := by
  rw [echoed]
  split_ifs with h
  · exact sent_waiting flow _
  · exact h

theorem received_waiting {buf : List UInt8} (h : buf.length ≤ metadataSize) : (received buf).Waiting := by
  rw [received]
  split_ifs with hfull
  · exact echoed_waiting _ _
  · exact lt_of_le_of_ne h hfull

theorem sent_ne_closed (flow : FlowMetadata) (count : ℕ) : sent flow count ≠ closed := by
  rw [sent]
  split_ifs <;> simp

theorem echoed_ne_closed (flow : FlowMetadata) (left : List UInt8) : echoed flow left ≠ closed := by
  rw [echoed]
  split_ifs
  · exact sent_ne_closed _ _
  · simp

theorem received_ne_closed (buf : List UInt8) : received buf ≠ closed := by
  rw [received]
  split_ifs
  · exact echoed_ne_closed _ _
  · simp

theorem sent_rest (flow : FlowMetadata) (count : ℕ) (input : List UInt8) :
    (sent flow count).rest input = List.replicate count 0 ++ served input := by
  rw [sent]
  split_ifs with h
  · rw [h]
    rfl
  · rfl

theorem echoed_rest (flow : FlowMetadata) (left input : List UInt8) :
    (echoed flow left).rest input =
      left ++ (List.replicate flow.size.toNat 0 ++ served input) := by
  rw [echoed]
  split_ifs with h
  · rw [sent_rest, h, List.nil_append]
  · rfl

theorem received_rest (buf input : List UInt8) : (received buf).rest input = served (buf ++ input) := by
  rw [received]
  split_ifs with h
  · rw [echoed_rest, served_append input h, FlowMetadata.response, List.append_assoc]
  · rfl

end Server

namespace Listener

theorem got_waiting (flow : FlowMetadata) (count : ℕ) : (got flow count).1.Waiting := by
  rw [got]
  split_ifs with h hid
  · trivial
  · exact (by decide : 0 < metadataSize)
  · exact Nat.pos_of_ne_zero h

theorem received_waiting {buf : List UInt8} (h : buf.length ≤ metadataSize) :
    (received buf).1.Waiting := by
  rw [received]
  split_ifs with hfull
  · exact got_waiting _ _
  · exact lt_of_le_of_ne h hfull

theorem rest_nil {l : Listener} (h : l.Waiting) : l.rest [] = [] := by
  cases l with
  | readMetadata buf => exact heard_of_lt (by rwa [List.append_nil])
  | readFlow flow count => exact if_neg (not_le.mpr h)
  | closed => rfl

theorem got_rest (flow : FlowMetadata) (count : ℕ) (input : List UInt8) :
    (got flow count).2 ++ (got flow count).1.rest input = heardFlow flow count input := by
  rw [got]
  split_ifs with hcount hid
  · simp [heardFlow, hcount, hid, rest]
  · simp [heardFlow, hcount, hid, rest]
  · rfl

theorem received_rest (buf input : List UInt8) :
    (received buf).2 ++ (received buf).1.rest input = heard (buf ++ input) := by
  rw [received]
  split_ifs with h
  · rw [got_rest, heard_append input h]
  · rfl

theorem rest_isPrefix (l : Listener) {s t : List UInt8} (h : s <+: t) : l.rest s <+: l.rest t := by
  cases l with
  | readMetadata buf => exact heard_isPrefix ((List.prefix_append_right_inj buf).mpr h)
  | readFlow flow count => exact heardFlow_isPrefix h
  | closed => exact List.prefix_rfl

end Listener

namespace Connection

/-- What a call can do. -/
inductive Step (capacity : ℕ) (s : Connection) : Action → Connection → Prop
  | nextRequest {f fs} (hrequest : s.request = []) (hrequests : s.requests = f :: fs) :
      Step capacity s .nextRequest { s with request := f.encode, requests := fs }
  | writeRequest {n} (hserver : s.server ≠ .closed) (hlistener : s.listener ≠ .closed) (hpos : 0 < n)
      (hle : n ≤ s.request.length) :
      Step capacity s (.writeRequest n)
        { s with up := s.up ++ s.request.take n, request := s.request.drop n }
  | dropRequest (hrequest : s.request ≠ []) (hclosed : s.server = .closed ∨ s.listener = .closed) :
      Step capacity s .dropRequest { s with request := [] }
  | readRequest {n buf} (hserver : s.server = .readMetadata buf) (hpos : 0 < n)
      (hbuf : n ≤ metadataSize - buf.length) (hup : n ≤ s.up.length) :
      Step capacity s (.readRequest n)
        { s with up := s.up.drop n, server := .received (buf ++ s.up.take n) }
  | writeMetadata {n flow left} (hserver : s.server = .writeMetadata flow left)
      (hlistener : s.listener ≠ .closed) (hpos : 0 < n) (hle : n ≤ left.length) :
      Step capacity s (.writeFlow n)
        { s with down := s.down ++ left.take n, server := .echoed flow (left.drop n) }
  | writeFlow {n flow count} (hserver : s.server = .writeFlow flow count)
      (hlistener : s.listener ≠ .closed) (hpos : 0 < n) (hle : n ≤ count) :
      Step capacity s (.writeFlow n)
        { s with down := s.down ++ List.replicate n 0, server := .sent flow (count - n) }
  | serverClose (hlistener : s.listener = .closed) (hserver : s.server ≠ .closed) :
      Step capacity s .serverClose { s with server := .closed }
  | readMetadata {n buf} (hlistener : s.listener = .readMetadata buf) (hpos : 0 < n)
      (hbuf : n ≤ metadataSize - buf.length) (hdown : n ≤ s.down.length) :
      Step capacity s (.readFlow n)
        { s with
          down := s.down.drop n
          listener := (Listener.received (buf ++ s.down.take n)).1
          finished := s.finished ++ (Listener.received (buf ++ s.down.take n)).2 }
  | readFlow {n flow count} (hlistener : s.listener = .readFlow flow count) (hpos : 0 < n)
      (hle : n ≤ count) (hdown : n ≤ s.down.length) :
      Step capacity s (.readFlow n)
        { s with
          down := s.down.drop n
          listener := (Listener.got flow (count - n)).1
          finished := s.finished ++ (Listener.got flow (count - n)).2 }
  | listenerClose (hserver : s.server = .closed) (hdown : s.down = [])
      (hlistener : s.listener ≠ .closed) :
      Step capacity s .listenerClose { s with listener := .closed }
  | lose {delivered} (hserver : s.server ≠ .closed) :
      Step capacity s (.lose delivered)
        { s with up := [], server := .closed, down := s.down.take delivered }

theorem transfers_le {n count maxPer : ℕ} (h : Transfers n count maxPer) : 0 < n ∧ n ≤ count := by
  obtain ⟨hpos,hle⟩ := h
  split_ifs at hle
  · omega
  · exact ⟨hpos,hle⟩

theorem step_cases {capacity : ℕ} {s t : Connection} {a : Action} (h : step capacity s a = some t) :
    Step capacity s a t := by
  cases a with
  | nextRequest =>
    rw [step] at h
    split at h
    · rename_i hrequest hrequests
      obtain rfl := Option.some.inj h
      exact .nextRequest hrequest hrequests
    · cases h
  | writeRequest n =>
    obtain ⟨⟨htransfer,-,hserver,hlistener⟩,rfl⟩ := Runs.of_guard h
    obtain ⟨hpos,hle⟩ := transfers_le htransfer
    exact .writeRequest hserver hlistener hpos hle
  | dropRequest =>
    obtain ⟨⟨hrequest,hclosed⟩,rfl⟩ := Runs.of_guard h
    exact .dropRequest hrequest hclosed
  | readRequest n =>
    rw [step] at h
    split at h
    · rename_i buf hserver
      obtain ⟨⟨htransfer,hup⟩,rfl⟩ := Runs.of_guard h
      obtain ⟨hpos,hle⟩ := transfers_le htransfer
      exact .readRequest hserver hpos hle hup
    · cases h
  | writeFlow n =>
    obtain ⟨⟨-,hlistener⟩,h⟩ := Option.ite_none_right_eq_some.mp h
    split at h
    · rename_i flow left hserver
      obtain ⟨htransfer,rfl⟩ := Runs.of_guard h
      obtain ⟨hpos,hle⟩ := transfers_le htransfer
      exact .writeMetadata hserver hlistener hpos hle
    · rename_i flow count hserver
      obtain ⟨htransfer,rfl⟩ := Runs.of_guard h
      obtain ⟨hpos,hle⟩ := transfers_le htransfer
      exact .writeFlow hserver hlistener hpos hle
    · cases h
  | serverClose =>
    obtain ⟨⟨hlistener,hserver⟩,rfl⟩ := Runs.of_guard h
    exact .serverClose hlistener hserver
  | readFlow n =>
    obtain ⟨hdown,h⟩ := Option.ite_none_right_eq_some.mp h
    split at h
    · rename_i buf hlistener
      obtain ⟨htransfer,rfl⟩ := Runs.of_guard h
      obtain ⟨hpos,hle⟩ := transfers_le htransfer
      exact .readMetadata hlistener hpos hle hdown
    · rename_i flow count hlistener
      obtain ⟨htransfer,rfl⟩ := Runs.of_guard h
      obtain ⟨hpos,hle⟩ := transfers_le htransfer
      exact .readFlow hlistener hpos hle hdown
    · cases h
  | listenerClose =>
    obtain ⟨⟨hserver,hdown,hlistener⟩,rfl⟩ := Runs.of_guard h
    exact .listenerClose hserver hdown hlistener
  | lose delivered =>
    obtain ⟨hserver,rfl⟩ := Runs.of_guard h
    exact .lose hserver

/-- The bytes on their way to the server. -/
def input (s : Connection) : List UInt8 :=
  s.up ++ (s.request ++ s.requests.flatMap FlowMetadata.encode)

/-- What the server has still to write. -/
def future (s : Connection) : List UInt8 := s.server.rest s.input

/-- What the client will have finished in the end. -/
def outcome (s : Connection) : List FlowMetadata := s.finished ++ s.listener.rest (s.down ++ s.future)

def Waiting (s : Connection) : Prop := s.server.Waiting ∧ s.listener.Waiting

theorem start_waiting (requests : List FlowMetadata) : (start requests).Waiting :=
  ⟨(by decide : 0 < metadataSize),(by decide : 0 < metadataSize)⟩

theorem Step.waiting {capacity : ℕ} {s t : Connection} {a : Action} (h : Step capacity s a t)
    (hs : s.Waiting) : t.Waiting := by
  obtain ⟨hserver',hlistener'⟩ := hs
  cases h with
  | nextRequest | writeRequest | dropRequest => exact ⟨hserver',hlistener'⟩
  | @readRequest n buf hserver hpos hbuf hup =>
    refine ⟨Server.received_waiting ?_,hlistener'⟩
    rw [List.length_append, List.length_take_of_le hup]
    omega
  | writeMetadata => exact ⟨Server.echoed_waiting _ _,hlistener'⟩
  | writeFlow => exact ⟨Server.sent_waiting _ _,hlistener'⟩
  | serverClose | lose => exact ⟨trivial,hlistener'⟩
  | @readMetadata n buf hlistener hpos hbuf hdown =>
    refine ⟨hserver',Listener.received_waiting ?_⟩
    rw [List.length_append, List.length_take_of_le hdown]
    omega
  | readFlow => exact ⟨hserver',Listener.got_waiting _ _⟩
  | listenerClose => exact ⟨hserver',trivial⟩

theorem outcome_of_closed {s t : Connection} (hs : s.listener = .closed) (ht : t.listener = .closed)
    (h : t.finished = s.finished) : t.outcome = s.outcome := by
  rw [outcome, outcome, hs, ht, h]
  rfl

theorem outcome_start (requests : List FlowMetadata) : (start requests).outcome = asked requests := by
  change [] ++ heard ([] ++ ([] ++ served ([] ++ ([] ++ ([] ++ requests.flatMap _))))) = _
  simp only [List.nil_append]
  rw [served_requests, heard_responses]

/-- How a call changes what the server has still to write. -/
theorem Step.future_eq {capacity : ℕ} {s t : Connection} {a : Action} (h : Step capacity s a t)
    (hserver : t.server ≠ .closed) (hlistener : t.listener ≠ .closed) :
    match a with
    | .writeFlow n => ∃ v, v.length = n ∧ t.down = s.down ++ v ∧ s.future = v ++ t.future
    | _ => t.future = s.future := by
  cases h with
  | nextRequest hrequest hrequests => simp [future, input, hrequest, hrequests]
  | @writeRequest n hopen hopen' hpos hle =>
    simp only [future, input]
    rw [List.append_assoc, ← List.append_assoc (s.request.take n), List.take_append_drop]
  | dropRequest hrequest hclosed => exact (hclosed.elim hserver hlistener).elim
  | @readRequest n buf hreading hpos hbuf hup =>
    simp only [future, input, hreading]
    rw [Server.received_rest, List.append_assoc, ← List.append_assoc (s.up.take n),
      List.take_append_drop]
    rfl
  | @writeMetadata n flow left hwriting hopen hpos hle =>
    refine ⟨left.take n,List.length_take_of_le hle,rfl,?_⟩
    simp only [future, hwriting]
    rw [Server.echoed_rest, ← List.append_assoc, List.take_append_drop]
    rfl
  | @writeFlow n flow count hwriting hopen hpos hle =>
    refine ⟨List.replicate n 0,List.length_replicate,rfl,?_⟩
    simp only [future, hwriting]
    rw [Server.sent_rest, ← List.append_assoc, List.replicate_append_replicate, Nat.add_sub_cancel' hle]
    rfl
  | serverClose => exact absurd rfl hserver
  | readMetadata | readFlow => rfl
  | listenerClose => exact absurd rfl hlistener
  | lose => exact absurd rfl hserver

/-- No call but the loss of the connection changes what it comes to. -/
theorem Step.outcome_eq {capacity : ℕ} {s t : Connection} {a : Action} (h : Step capacity s a t)
    (hs : s.Waiting) (ha : ∀ delivered, a ≠ .lose delivered) : t.outcome = s.outcome := by
  have hfuture := h.future_eq
  cases h with
  | nextRequest hrequest hrequests => simp [outcome, future, input, hrequest, hrequests]
  | @writeRequest n hopen hopen' hpos hle =>
    rw [outcome, outcome, hfuture hopen hopen']
  | dropRequest hrequest hclosed =>
    rcases hclosed with hserver | hlistener
    · simp [outcome, future, hserver, Server.rest]
    · exact outcome_of_closed hlistener hlistener rfl
  | @readRequest n buf hserver hpos hbuf hup =>
    by_cases hlistener : s.listener = .closed
    · exact outcome_of_closed hlistener hlistener rfl
    · rw [outcome, outcome, hfuture (Server.received_ne_closed _) hlistener]
  | @writeMetadata n flow left hserver hlistener hpos hle =>
    obtain ⟨v,-,hdown,hsplit⟩ := hfuture (Server.echoed_ne_closed _ _) hlistener
    rw [outcome, outcome, hsplit, hdown, List.append_assoc]
  | @writeFlow n flow count hserver hlistener hpos hle =>
    obtain ⟨v,-,hdown,hsplit⟩ := hfuture (Server.sent_ne_closed _ _) hlistener
    rw [outcome, outcome, hsplit, hdown, List.append_assoc]
  | serverClose hlistener hserver => exact outcome_of_closed hlistener hlistener rfl
  | @readMetadata n buf hlistener hpos hbuf hdown =>
    have hstream : s.down.take n ++ (s.down.drop n ++ s.future) = s.down ++ s.future := by
      rw [← List.append_assoc, List.take_append_drop]
    rw [outcome, outcome, hlistener, List.append_assoc, Listener.rest, ← hstream, ← List.append_assoc buf,
      ← Listener.received_rest]
    rfl
  | @readFlow n flow count hlistener hpos hle hdown =>
    have hstream : s.down.take n ++ (s.down.drop n ++ s.future) = s.down ++ s.future := by
      rw [← List.append_assoc, List.take_append_drop]
    have htake : (s.down.take n).length = n := List.length_take_of_le hdown
    rw [outcome, outcome, hlistener, List.append_assoc, Listener.got_rest, Listener.rest, ← hstream,
      heardFlow_append _ (htake.le.trans hle), htake]
    rfl
  | listenerClose hserver hdown hlistener =>
    have hrest : s.listener.rest (s.down ++ s.future) = [] := by
      rw [hdown, future, hserver, Server.rest, List.append_nil, Listener.rest_nil hs.2]
    rw [outcome, outcome, hrest]
    rfl
  | @lose delivered hserver => exact absurd rfl (ha delivered)

/-- The loss of the connection cuts the outcome short. -/
theorem Step.outcome_isPrefix {capacity : ℕ} {s t : Connection} {a : Action} (h : Step capacity s a t)
    (hs : s.Waiting) : t.outcome <+: s.outcome := by
  by_cases ha : ∀ delivered, a ≠ .lose delivered
  · rw [h.outcome_eq hs ha]
  · obtain ⟨delivered,rfl⟩ := not_forall_not.mp ha
    cases h
    refine (List.prefix_append_right_inj s.finished).mpr (Listener.rest_isPrefix _ ?_)
    rw [future, Server.rest, List.append_nil]
    exact (List.take_prefix _ _).trans (List.prefix_append _ _)

/-- A bound of the calls to come. -/
def measure (s : Connection) : ℕ :=
  s.requests.length + 2 * (s.request ++ s.requests.flatMap FlowMetadata.encode).length + s.up.length +
    (if s.listener = .closed then 0 else 2 * s.future.length + 1) + s.down.length +
    if s.server = .closed then 0 else 1

theorem future_of_closed {s : Connection} (h : s.server = .closed) : s.future = [] := by
  rw [future, h]
  rfl

theorem Step.measure_lt {capacity : ℕ} {s t : Connection} {a : Action} (h : Step capacity s a t) :
    t.measure < s.measure := by
  have hfuture := h.future_eq
  cases h with
  | nextRequest hrequest hrequests => simp [measure, future, input, hrequest, hrequests]
  | @writeRequest n hserver hlistener hpos hle =>
    simp only [measure, hserver, hlistener, hfuture hserver hlistener, List.length_take_of_le hle,
      List.length_append, List.length_drop, if_false]
    omega
  | dropRequest hrequest hclosed =>
    have hlen := List.length_pos_iff.mpr hrequest
    rcases hclosed with hserver | hlistener
    · simpa [measure, future_of_closed, hserver] using hlen
    · simpa [measure, hlistener] using hlen
  | @readRequest n buf hserver hpos hbuf hup =>
    have hopen := Server.received_ne_closed (buf ++ s.up.take n)
    by_cases hlistener : s.listener = .closed
    · simp only [measure, hlistener, hserver, hopen, List.length_drop, if_true, if_false, reduceCtorEq]
      omega
    · simp only [measure, hfuture hopen hlistener, hlistener, hserver, hopen, List.length_drop,
        if_false, reduceCtorEq]
      omega
  | @writeMetadata n flow left hserver hlistener hpos hle =>
    have hopen := Server.echoed_ne_closed flow (left.drop n)
    obtain ⟨v,hv,hdown,hsplit⟩ := hfuture hopen hlistener
    have hlen := congrArg List.length hdown
    simp only [measure, hsplit, hserver, hopen, hlistener, List.length_append, if_false,
      reduceCtorEq] at hlen ⊢
    omega
  | @writeFlow n flow count hserver hlistener hpos hle =>
    have hopen := Server.sent_ne_closed flow (count - n)
    obtain ⟨v,hv,hdown,hsplit⟩ := hfuture hopen hlistener
    have hlen := congrArg List.length hdown
    simp only [measure, hsplit, hserver, hopen, hlistener, List.length_append, if_false,
      reduceCtorEq] at hlen ⊢
    omega
  | serverClose hlistener hserver => simp [measure, hlistener, hserver]
  | @readMetadata n buf hlistener hpos hbuf hdown =>
    simp only [measure, future, input, hlistener, List.length_drop, reduceCtorEq, if_false]
    split_ifs <;> omega
  | @readFlow n flow count hlistener hpos hle hdown =>
    simp only [measure, future, input, hlistener, List.length_drop, reduceCtorEq, if_false]
    split_ifs <;> omega
  | listenerClose hserver hdown hlistener => simp [measure, hserver, hlistener]
  | @lose delivered hserver =>
    have hdown := List.length_take_le' delivered s.down
    simp only [measure, hserver, future_of_closed, List.length_nil, if_true, if_false]
    split_ifs <;> omega

theorem transfers_one {count maxPer : ℕ} (hcount : 0 < count) (hmax : 0 < maxPer) :
    Transfers 1 count maxPer := by
  refine ⟨Nat.one_pos,?_⟩
  split_ifs
  · exact hmax
  · exact hcount

/-- As long as a flow is missing, some call is possible that is not the loss of the connection. -/
theorem exists_step {capacity : ℕ} (hcap : 0 < capacity) {s : Connection} (hs : s.Waiting)
    (hgoal : s.finished ≠ s.outcome) :
    ∃ a, (∀ delivered, a ≠ .lose delivered) ∧ (step capacity s a).isSome := by
  obtain ⟨hserver',hlistener'⟩ := hs
  have hlistener : s.listener ≠ .closed := by
    intro hclosed
    exact hgoal (by rw [outcome, hclosed, Listener.rest, List.append_nil])
  by_cases hdown : s.down = []
  · have hroom : s.down.length + 1 ≤ capacity := by rw [hdown]; exact hcap
    cases hserver : s.server with
    | readMetadata buf =>
      rw [hserver] at hserver'
      by_cases hup : s.up = []
      · by_cases hrequest : s.request = []
        · cases hrequests : s.requests with
          | nil =>
            refine absurd ?_ hgoal
            rw [outcome, future, input, hserver, hdown, hup, hrequest, hrequests, Server.rest]
            simp only [List.nil_append, List.append_nil, List.flatMap_nil]
            rw [served_of_lt hserver', Listener.rest_nil hlistener', List.append_nil]
          | cons f fs => exact ⟨.nextRequest,by simp,by simp [step, hrequest, hrequests]⟩
        · refine ⟨.writeRequest 1,by simp,?_⟩
          have htransfer := transfers_one (List.length_pos_iff.mpr hrequest) (by decide : 0 < metadataSize)
          have hle : 1 ≤ capacity := hcap
          simp [step, htransfer, hup, hserver, hlistener, hle]
      · refine ⟨.readRequest 1,by simp,?_⟩
        have htransfer := transfers_one (Nat.sub_pos_of_lt hserver') (by decide : 0 < metadataSize)
        have hle : 1 ≤ s.up.length := List.length_pos_iff.mpr hup
        simp [step, hserver, htransfer, hle]
    | writeMetadata flow left =>
      rw [hserver] at hserver'
      refine ⟨.writeFlow 1,by simp,?_⟩
      have htransfer := transfers_one (List.length_pos_iff.mpr hserver') (by decide : 0 < metadataSize)
      simp [step, hserver, hroom, hlistener, htransfer]
    | writeFlow flow count =>
      rw [hserver] at hserver'
      refine ⟨.writeFlow 1,by simp,?_⟩
      have hmax : 0 < if flow.rate > 0 then minWrite else maxWrite := by split_ifs <;> decide
      have htransfer := transfers_one hserver' hmax
      simp [step, hserver, hroom, hlistener, htransfer]
    | closed => exact ⟨.listenerClose,by simp,by simp [step, hserver, hdown, hlistener]⟩
  · have hle : 1 ≤ s.down.length := List.length_pos_iff.mpr hdown
    refine ⟨.readFlow 1,by simp,?_⟩
    cases hreading : s.listener with
    | readMetadata buf =>
      rw [hreading] at hlistener'
      have htransfer := transfers_one (Nat.sub_pos_of_lt hlistener') (by decide : 0 < metadataSize)
      simp [step, hreading, htransfer, hle]
    | readFlow flow count =>
      rw [hreading] at hlistener'
      have htransfer := transfers_one hlistener' (by decide : 0 < maxRead)
      simp [step, hreading, htransfer, hle]
    | closed => exact absurd hreading hlistener

/-- Whatever the calls transfer and in whatever order they are made, also if the connection is lost,
the finished flows are the first of those asked for, each in full and once. -/
theorem finished_isPrefix (capacity : ℕ) (requests : List FlowMetadata) (acts : List Action)
    (s : Connection) (h : Runs.run (step capacity) (start requests) acts = some s) :
    s.finished <+: asked requests := by
  have hinv := Runs.run_preserves (fun _ s => s.Waiting ∧ s.outcome <+: asked requests)
    ⟨start_waiting requests,by rw [outcome_start]⟩
    (fun _ _ _ _ hs ht => ⟨(step_cases ht).waiting hs.1,
      ((step_cases ht).outcome_isPrefix hs.1).trans hs.2⟩) acts s h
  exact (List.prefix_append _ _).trans hinv.2

theorem finished_isPrefix_lost :
    let requests : List FlowMetadata := [⟨7,2,0,0⟩,⟨8,1,0,0⟩]
    let acts : List Action := [.nextRequest,.writeRequest 16,.nextRequest,.writeRequest 4,
      .readRequest 9,.readRequest 7,.writeFlow 16,.writeFlow 2,.readFlow 16,.readFlow 2,
      .writeRequest 12,.readRequest 16,.writeFlow 16,.lose 10,.readFlow 10,.listenerClose]
    ∃ s, Runs.run (step 20) (start requests) acts = some s ∧ s.finished = [⟨7,2,0,0⟩] ∧
      s.finished <+: asked requests := by
  intro requests acts
  have hrun : (Runs.run (step 20) (start requests) acts).map finished = some [⟨7,2,0,0⟩] := by
    decide +kernel
  obtain ⟨s,hs,hfinished⟩ := Option.map_eq_some_iff.mp hrun
  exact ⟨s,hs,hfinished,finished_isPrefix 20 requests acts s hs⟩

/-- The calls that a list of requests can take. -/
def callBound (requests : List FlowMetadata) : ℕ :=
  requests.length + 2 * (requests.length * metadataSize) +
    2 * (requests.map fun f => metadataSize + f.size.toNat).sum + 2

theorem measure_start (requests : List FlowMetadata) : (start requests).measure = callBound requests := by
  have hencode : (requests.flatMap FlowMetadata.encode).length = requests.length * metadataSize := by
    simp [List.length_flatMap]
  have hresponse : (requests.flatMap FlowMetadata.response).length =
      (requests.map fun f => metadataSize + f.size.toNat).sum := by
    simp [List.length_flatMap, FlowMetadata.response]
  have hfuture : (start requests).future = requests.flatMap FlowMetadata.response := served_requests requests
  rw [measure, hfuture, hresponse, callBound, ← hencode]
  simp only [start, List.nil_append, List.length_nil, reduceCtorEq, if_false]
  omega

/-- What a connection that is not lost comes to. -/
theorem run_outcome {capacity : ℕ} {requests : List FlowMetadata} {acts : List Action}
    (hlose : ∀ a ∈ acts, ∀ delivered, a ≠ .lose delivered) {s : Connection}
    (h : Runs.run (step capacity) (start requests) acts = some s) :
    s.Waiting ∧ s.outcome = asked requests := by
  refine Runs.run_preserves_of (fun a => ∀ delivered, a ≠ .lose delivered)
    (fun s => s.Waiting ∧ s.outcome = asked requests) ⟨start_waiting requests,outcome_start requests⟩
    ?_ acts hlose s h
  rintro s a t ha ⟨hs,houtcome⟩ ht
  exact ⟨(step_cases ht).waiting hs,((step_cases ht).outcome_eq hs ha).trans houtcome⟩

/-- A run in which the connection is not lost makes a bounded number of calls, goes on until all
flows asked for are finished, and can always be continued to that end. -/
theorem run_completes {capacity : ℕ} (hcap : 0 < capacity) (requests : List FlowMetadata)
    (acts : List Action) (hlose : ∀ a ∈ acts, ∀ delivered, a ≠ .lose delivered) (s : Connection)
    (h : Runs.run (step capacity) (start requests) acts = some s) :
    acts.length ≤ callBound requests ∧
      ((∀ a, (∀ delivered, a ≠ .lose delivered) → step capacity s a = none) →
        s.finished = asked requests) ∧
      ∃ more t, (∀ a ∈ more, ∀ delivered, a ≠ .lose delivered) ∧
        Runs.run (step capacity) s more = some t ∧ t.finished = asked requests := by
  obtain ⟨hs,houtcome⟩ := run_outcome hlose h
  have hmeasure : ∀ s a t, step capacity s a = some t → t.measure < s.measure :=
    fun s a t ht => (step_cases ht).measure_lt
  refine ⟨?_,fun hstuck => ?_,?_⟩
  · have hlen := Runs.run_length_le hmeasure acts _ s h
    rw [measure_start] at hlen
    omega
  · by_contra hgoal
    obtain ⟨a,ha,hsome⟩ := exists_step hcap hs (by rwa [houtcome])
    rw [hstuck a ha] at hsome
    exact absurd hsome (by simp)
  · refine Runs.exists_run_to hmeasure (fun a => ∀ delivered, a ≠ .lose delivered)
      (fun s => s.Waiting ∧ s.outcome = asked requests) (fun s => s.finished = asked requests) ?_ ?_
      s ⟨hs,houtcome⟩
    · exact fun s a t ha hs ht => ⟨(step_cases ht).waiting hs.1,
        ((step_cases ht).outcome_eq hs.1 ha).trans hs.2⟩
    · exact fun s hs hgoal => exists_step hcap hs.1 (by rwa [hs.2])

theorem run_completes_two :
    let requests : List FlowMetadata := [⟨7,2,0,0⟩,⟨0,100,0,0⟩]
    let acts : List Action := [.nextRequest,.writeRequest 5,.readRequest 3,.readRequest 2]
    (∀ a ∈ acts, ∀ delivered, a ≠ .lose delivered) ∧
      ∃ s, Runs.run (step 8) (start requests) acts = some s ∧
        ∃ more t, (∀ a ∈ more, ∀ delivered, a ≠ .lose delivered) ∧
          Runs.run (step 8) s more = some t ∧ t.finished = requests := by
  intro requests acts
  have hlose : ∀ a ∈ acts, ∀ delivered, a ≠ .lose delivered := by simp [acts]
  have hrun : (Runs.run (step 8) (start requests) acts).isSome := by decide +kernel
  obtain ⟨s,hs⟩ := Option.isSome_iff_exists.mp hrun
  obtain ⟨-,-,hmore⟩ := run_completes (by decide : 0 < 8) requests acts hlose s hs
  exact ⟨hlose,s,hs,hmore⟩

end Connection

end FlowProtocol
end SketchMonitor
