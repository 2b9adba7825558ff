import SketchMonitor.LittleEndian
import SketchMonitor.Runs

/-!
# The flow protocol of the traffic generator

A client asks for flows on a connection and the server answers each request by echoing its
metadata and sending as many bytes as asked for. `read_exact` and `write_exact` repeat
calls that transfer any part of what is left, so client, server and network interleave byte
by byte. `step` is one such call. Each direction of the connection has a buffer of limited
capacity, and the connection may be lost at any time.
-/

namespace SketchMonitor
namespace FlowProtocol

open LittleEndian

/-- `TG_MAX_WRITE`. -/
def maxWrite : ℕ := 1 <<< 20

/-- `TG_MIN_WRITE`, used with rate limiting. -/
def minWrite : ℕ := 1 <<< 16

/-- `TG_MAX_READ`. -/
def maxRead : ℕ := 1 <<< 20

/-- `struct flow_metadata`. -/
structure FlowMetadata where
  id : UInt32
  size : UInt32
  tos : UInt32
  rate : UInt32
  deriving DecidableEq

/-- `TG_METADATA_SIZE`. -/
abbrev metadataSize : ℕ := 16

namespace FlowMetadata

/-- The buffer that `write_flow_req` fills. -/
def encode (f : FlowMetadata) : List UInt8 :=
  bytes 4 f.id.toNat ++ (bytes 4 f.size.toNat ++ (bytes 4 f.tos.toNat ++ bytes 4 f.rate.toNat))

/-- The field of four bytes at an offset. -/
def field (buf : List UInt8) (offset : ℕ) : UInt32 :=
  UInt32.ofNat (value ((buf.drop offset).take 4))

/-- The metadata that `read_flow_metadata` extracts from its buffer. -/
def decode (buf : List UInt8) : FlowMetadata :=
  ⟨field buf 0,field buf 4,field buf 8,field buf 12⟩

@[simp] theorem length_encode (f : FlowMetadata) : f.encode.length = metadataSize := by
  simp [encode]

@[simp] theorem ofNat_value_bytes (x : UInt32) : UInt32.ofNat (value (bytes 4 x.toNat)) = x := by
  rw [value_bytes x.toNat_lt, UInt32.ofNat_toNat]

@[simp] theorem decode_encode (f : FlowMetadata) : decode f.encode = f := by
  simp [decode, field, encode, List.drop_append]

end FlowMetadata

/-- What a call of `read` or `write` may transfer, of `count` bytes with at most `maxPer` a call. -/
def Transfers (n count maxPer : ℕ) : Prop := 0 < n ∧ n ≤ if count > maxPer then maxPer else count

instance (n count maxPer : ℕ) : Decidable (Transfers n count maxPer) :=
  inferInstanceAs (Decidable (_ ∧ _))

/-- Where the thread of `handle_connection` is, with the locals of the call it is in: the buffer
of `read_exact`, or what `write_exact` has still to write. -/
inductive Server
  | readMetadata (buf : List UInt8)
  | writeMetadata (flow : FlowMetadata) (left : List UInt8)
  | writeFlow (flow : FlowMetadata) (count : ℕ)
  | closed
  deriving DecidableEq

namespace Server

def sent (flow : FlowMetadata) (count : ℕ) : Server :=
  if count = 0 then readMetadata [] else writeFlow flow count

def echoed (flow : FlowMetadata) (left : List UInt8) : Server :=
  if left = [] then sent flow flow.size.toNat else writeMetadata flow left

def received (buf : List UInt8) : Server :=
  if buf.length = metadataSize then
    let flow := FlowMetadata.decode buf
    echoed flow flow.encode
  else readMetadata buf

end Server

/-- Where the thread of `listen_connection` is. -/
inductive Listener
  | readMetadata (buf : List UInt8)
  | readFlow (flow : FlowMetadata) (count : ℕ)
  | closed
  deriving DecidableEq

namespace Listener

/-- A flow is finished when its last byte is read. A special flow ID terminates the connection. -/
def got (flow : FlowMetadata) (count : ℕ) : Listener × List FlowMetadata :=
  if count = 0 then (if flow.id = 0 then closed else readMetadata [],[flow])
  else (readFlow flow count,[])

def received (buf : List UInt8) : Listener × List FlowMetadata :=
  if buf.length = metadataSize then
    let flow := FlowMetadata.decode buf
    got flow flow.size.toNat
  else (readMetadata buf,[])

end Listener

/-- A connection: the requests to come, the rest of the current one, the bytes on the way to the
server and back, the two threads and the flows finished so far. -/
structure Connection where
  requests : List FlowMetadata
  request : List UInt8
  up : List UInt8
  server : Server
  down : List UInt8
  listener : Listener
  finished : List FlowMetadata
  deriving DecidableEq

/-- A call of `read` or `write` with the number of bytes it transfers, the start of the next
request, a call that fails or meets the end of the stream, or the loss of the connection with
the number of bytes still delivered to the client. -/
inductive Action
  | nextRequest
  | writeRequest (n : ℕ)
  | dropRequest
  | readRequest (n : ℕ)
  | writeFlow (n : ℕ)
  | serverClose
  | readFlow (n : ℕ)
  | listenerClose
  | lose (delivered : ℕ)
  deriving DecidableEq

namespace Connection

def start (requests : List FlowMetadata) : Connection :=
  ⟨requests,[],[],.readMetadata [],[],.readMetadata [],[]⟩

/-- The next call of one of the threads; `capacity` is that of the buffers. -/
def step (capacity : ℕ) (s : Connection) : Action → Option Connection
  | .nextRequest =>
    match s.request, s.requests with
    | [], f :: fs => some { s with request := f.encode, requests := fs }
    | _, _ => none
  | .writeRequest n =>
    if Transfers n s.request.length metadataSize ∧ s.up.length + n ≤ capacity ∧
        s.server ≠ .closed ∧ s.listener ≠ .closed then
      some { s with up := s.up ++ s.request.take n, request := s.request.drop n }
    else none
  | .dropRequest =>
    if s.request ≠ [] ∧ (s.server = .closed ∨ s.listener = .closed) then
      some { s with request := [] }
    else none
  | .readRequest n =>
    match s.server with
    | .readMetadata buf =>
      if Transfers n (metadataSize - buf.length) metadataSize ∧ n ≤ s.up.length then
        some { s with up := s.up.drop n, server := .received (buf ++ s.up.take n) }
      else none
    | _ => none
  | .writeFlow n =>
    if s.down.length + n ≤ capacity ∧ s.listener ≠ .closed then
      match s.server with
      | .writeMetadata flow left =>
        if Transfers n left.length metadataSize then
          some { s with down := s.down ++ left.take n, server := .echoed flow (left.drop n) }
        else none
      | .writeFlow flow count =>
        -- the buffers `min_write_buf` and `max_write_buf` hold zeros
        if Transfers n count (if flow.rate > 0 then minWrite else maxWrite) then
          some { s with down := s.down ++ List.replicate n 0, server := .sent flow (count - n) }
        else none
      | _ => none
    else none
  | .serverClose =>
    if s.listener = .closed ∧ s.server ≠ .closed then some { s with server := .closed } else none
  | .readFlow n =>
    if n ≤ s.down.length then
      match s.listener with
      | .readMetadata buf =>
        if Transfers n (metadataSize - buf.length) metadataSize then
          let next := Listener.received (buf ++ s.down.take n)
          some { s with
            down := s.down.drop n
            listener := next.1
            finished := s.finished ++ next.2 }
        else none
      | .readFlow flow count =>
        if Transfers n count maxRead then
          let next := Listener.got flow (count - n)
          some { s with
            down := s.down.drop n
            listener := next.1
            finished := s.finished ++ next.2 }
        else none
      | .closed => none
    else none
  | .listenerClose =>
    if s.server = .closed ∧ s.down = [] ∧ s.listener ≠ .closed then
      some { s with listener := .closed }
    else none
  | .lose delivered =>
    if s.server ≠ .closed then
      some { s with up := [], server := .closed, down := s.down.take delivered }
    else none

end Connection

end FlowProtocol
end SketchMonitor
