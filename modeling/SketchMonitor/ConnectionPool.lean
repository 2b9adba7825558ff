import SketchMonitor.Runs

/-!
# The connection pool of the traffic generator

The main thread of the client takes a connection that is not busy for each request, or opens
a new one, and at the end sends the special flow ID on every connection. One thread for each
connection reads the responses. They share the flags of the node and, under a lock, the
counters of the list. `step` executes one statement of one thread. A connection is a queue
of the requests sent and not yet answered, which the server answers in order. A request
that cannot be written is never answered.
-/

namespace SketchMonitor
namespace ConnectionPool

/-- Where a thread of `listen_connection` is: reading, behind the read of a flow, behind
`node->busy = false`, behind the locked section and before the stop time is taken, or behind the
loop, that is before `node->connected = false`, before `node->busy = false` and at the end. The flag
tells whether the special flow ID was read. -/
inductive Thread
  | reading
  | finished (id : UInt32)
  | counting (id : UInt32)
  | stamping (id : UInt32)
  | closing (terminated : Bool)
  | clearing (terminated : Bool)
  | ended (terminated : Bool)
  deriving DecidableEq

/-- `struct conn_node` with its thread and the IDs of the requests not yet answered. -/
structure Node where
  busy : Bool
  connected : Bool
  flows : List UInt32
  thread : Thread
  deriving DecidableEq

/-- `init_conn_node`. -/
def Node.new : Node := ⟨false,true,[],.reading⟩

/-- What a statement does outside the node: the locked section counts a flow, and the statement
behind it takes the stop time. -/
inductive Event
  | silent
  | counted (id : UInt32)
  | stopped (id : UInt32)
  deriving DecidableEq

/-- The next statement of `listen_connection`. -/
def Node.listen (node : Node) : Option (Node × Event) :=
  match node.thread, node.flows with
  | .reading, id :: flows => some ({ node with flows := flows, thread := .finished id },.silent)
  | .reading, [] => none
  | .finished id, _ => some ({ node with busy := false, thread := .counting id },.silent)
  | .counting id, _ =>
    if id ≠ 0 then some ({ node with thread := .stamping id },.counted id)
    else some ({ node with thread := .closing true },.silent)
  | .stamping id, _ => some ({ node with thread := .reading },.stopped id)
  | .closing terminated, _ =>
    some ({ node with connected := false, thread := .clearing terminated },.silent)
  | .clearing terminated, _ => some ({ node with busy := false, thread := .ended terminated },.silent)
  | .ended _, _ => none

/-- The read fails. -/
def Node.fail (node : Node) : Option Node :=
  if node.thread = .reading then some { node with thread := .closing false } else none

/-- Where the main thread is: between requests, in the loop of `search_conn_list` before it reads
`busy` and before it reads `connected` of the node `i`, before `insert_conn_list`, with a node
before `busy = true`, before `available_len--` and before `write_flow_req`, in the loop of
`exit_connections` before it reads `connected` and before the two parts of `exit_connection`,
and in `wait_conn_list`. -/
inductive Main
  | idle
  | searching (id : UInt32) (i : ℕ)
  | checking (id : UInt32) (i : ℕ)
  | inserting (id : UInt32)
  | chosen (id : UInt32) (i : ℕ)
  | marked (id : UInt32) (i : ℕ)
  | sending (id : UInt32) (i : ℕ)
  | exiting (i : ℕ)
  | leaving (i : ℕ)
  | terminating (i : ℕ)
  | waiting
  deriving DecidableEq

/-- `struct conn_list` with the main thread, the requests to come, and the flow IDs whose start
times have been taken, that could not be written, that have been counted, and whose stop times have
been taken. -/
structure ConnList where
  nodes : List Node
  availableLen : UInt32
  flowFinished : UInt32
  main : Main
  requests : List UInt32
  started : List UInt32
  unwritten : List UInt32
  counted : List UInt32
  stopped : List UInt32
  deriving DecidableEq

/-- One statement of the main thread, with the result of `connect` or `write_flow_req` where there is
one, one of the thread of a node, or a failure of the connection of a node. -/
inductive Action
  | main (succeeds : Bool)
  | listen (i : ℕ)
  | fail (i : ℕ)
  deriving DecidableEq

namespace ConnList

/-- A list of `n` new connections. -/
def start (n : ℕ) (requests : List UInt32) : ConnList :=
  ⟨List.replicate n Node.new,UInt32.ofNat n,0,.idle,requests,[],[],[],[]⟩

def stepMain (s : ConnList) (succeeds : Bool) : Option ConnList :=
  match s.main with
  | .idle =>
    match s.requests with
    | [] => some { s with main := .exiting 0 }
    | id :: requests =>
      -- `search_conn_list` returns NULL at once if no connection is available
      let main := if s.availableLen = 0 then .inserting id else .searching id 0
      some { s with main := main, requests := requests }
  | .searching id i =>
    match s.nodes[i]? with
    | none => some { s with main := .inserting id }
    | some node => some { s with main := if node.busy then .searching id (i+1) else .checking id i }
  | .checking id i =>
    s.nodes[i]?.map fun node =>
      { s with main := if node.connected then .chosen id i else .searching id (i+1) }
  | .inserting id =>
    if succeeds then
      some { s with
        nodes := s.nodes ++ [Node.new]
        availableLen := s.availableLen + 1
        main := .chosen id s.nodes.length }
    else some { s with main := .idle }
  | .chosen id i =>
    s.nodes[i]?.map fun node =>
      { s with
        nodes := s.nodes.set i { node with busy := true }
        main := .marked id i
        started := s.started ++ [id] }
  | .marked id i => some { s with availableLen := s.availableLen - 1, main := .sending id i }
  | .sending id i =>
    -- after `perror` the node stays busy
    s.nodes[i]?.map fun node =>
      if succeeds then
        { s with nodes := s.nodes.set i { node with flows := node.flows ++ [id] }, main := .idle }
      else { s with unwritten := s.unwritten ++ [id], main := .idle }
  | .exiting i =>
    match s.nodes[i]? with
    | none => some { s with main := .waiting }
    | some node => some { s with main := if node.connected then .leaving i else .exiting (i+1) }
  | .leaving i => some { s with availableLen := s.availableLen - 1, main := .terminating i }
  | .terminating i =>
    s.nodes[i]?.map fun node =>
      if succeeds then
        { s with
          nodes := s.nodes.set i { node with flows := node.flows ++ [0] }
          main := .exiting (i+1) }
      else { s with unwritten := s.unwritten ++ [0], main := .exiting (i+1) }
  | .waiting => none

def record (s : ConnList) : Event → ConnList
  | .silent => s
  | .counted id =>
    { s with
      availableLen := s.availableLen + 1
      flowFinished := s.flowFinished + 1
      counted := s.counted ++ [id] }
  | .stopped id => { s with stopped := s.stopped ++ [id] }

def step (s : ConnList) : Action → Option ConnList
  | .main succeeds => s.stepMain succeeds
  | .listen i =>
    s.nodes[i]?.bind fun node => node.listen.map fun next =>
      { s.record next.2 with nodes := s.nodes.set i next.1 }
  | .fail i =>
    s.nodes[i]?.bind fun node => node.fail.map fun next => { s with nodes := s.nodes.set i next }

end ConnList

end ConnectionPool
end SketchMonitor
