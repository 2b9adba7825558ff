import SketchMonitor.FiniteSums
import SketchMonitor.RecieveSketch

/-!
# The receive loop when the device goes away

The two loops of `recieveSketch` taken one step at a time against the results of
`recv`, one for every call. A result of length zero, which `recv` returns for good
once the device has closed the connection, is stored like any other. `Kept` carries
the frames received so far and bounds the steps by the calls of `recv` made.
-/

namespace SketchMonitor

open Framing

/-- The points of `recieveSketch`: the call for the id, the heads of the two loops, the
call in the inner one, the copy to `ptr`, and `close(connectfd)` behind the loops. -/
inductive Pc
  | recvId
  | outer
  | inner
  | recv
  | install
  | close

/-- The locals of `recieveSketch`, the calls of `recv` made and the sketches copied to `ptr`. -/
structure Loops where
  pc : Pc
  buf : List UInt8
  len : ℕ
  calls : ℕ
  installed : List (List UInt8)

namespace Loops

def start : Loops := ⟨.recvId,[],0,0,[]⟩

/-- One step against the results of `recv`; `none` is the result -1. -/
def step (results : ℕ → Option (List UInt8)) (c : Loops) : Except Stop Loops :=
  match c.pc with
  | .recvId =>
    match results c.calls with
    | none => .error .exitFailure
    | some _ => .ok { c with pc := .outer, calls := c.calls + 1 }
  -- the condition of the outer loop is `true`: its exit, `close`, follows no point
  | .outer => .ok { c with pc := .inner, buf := List.replicate sketchSize 0, len := 0 }
  | .inner => .ok { c with pc := if c.len < sketchSize then .recv else .install }
  | .recv =>
    match results c.calls with
    | none => .error .exitFailure
    | some bytes =>
      let r := bytes.length
      if c.len + r > sketchSize then .error .overrun
      else .ok { c with
        pc := .inner
        buf := c.buf.take c.len ++ bytes ++ c.buf.drop (c.len + r)
        len := c.len + r
        calls := c.calls + 1 }
  | .install => .ok { c with
      pc := .outer
      installed := if c.len = sketchSize then c.installed ++ [c.buf] else c.installed }
  | .close => .ok c

/-- The state after some steps. -/
def after (results : ℕ → Option (List UInt8)) : ℕ → Except Stop Loops
  | 0 => .ok start
  | n+1 => (after results n).bind (step results)

/-- The results of the inner loop after `n` calls in all. -/
def received (results : ℕ → List UInt8) (n : ℕ) : List (List UInt8) :=
  (List.range (n-1)).map fun i => results (i+1)

theorem received_succ (results : ℕ → List UInt8) {n : ℕ} (hn : 0 < n) :
    received results (n+1) = received results n ++ [results n] := by
  obtain ⟨m,rfl⟩ := Nat.exists_eq_succ_of_ne_zero hn.ne'
  simp [received, List.range_succ]

/-- The sketches received, with the one that is still to be copied, and the part of the next. -/
def frames (c : Loops) : Pending UInt8 :=
  match c.pc with
  | .inner | .recv | .install =>
    if c.len = sketchSize then ⟨[],c.installed ++ [c.buf]⟩ else ⟨c.buf.take c.len,c.installed⟩
  | _ => ⟨[],c.installed⟩

/-- The locals at each point. -/
def Shape (c : Loops) : Prop :=
  match c.pc with
  | .recvId => c.calls = 0
  | .outer => 0 < c.calls
  | .inner => 0 < c.calls ∧ c.buf.length = sketchSize ∧ c.len ≤ sketchSize
  | .recv => 0 < c.calls ∧ c.buf.length = sketchSize ∧ c.len < sketchSize
  | .install => 0 < c.calls ∧ c.len = sketchSize
  | .close => False

/-- Steps made since the last call of `recv`, at most. -/
def slack (c : Loops) : ℕ :=
  match c.pc with
  | .install => 1
  | .outer => 2
  | .inner => if c.len < sketchSize then 3 else 0
  | .recv => 4
  | _ => 0

theorem slack_le (c : Loops) : c.slack ≤ 4 := by
  unfold slack
  split <;> (try split_ifs) <;> omega

/-- What holds after `n` steps. -/
structure Kept (results : ℕ → List UInt8) (n : ℕ) (c : Loops) : Prop where
  shape : c.Shape
  frames_eq : Runs.run (feed sketchSize) ⟨[],[]⟩ (received results c.calls) = some c.frames
  steps_le : n ≤ 5 * c.calls + c.slack

variable {results : ℕ → List UInt8}

theorem kept_start : Kept results 0 start := ⟨rfl,rfl,Nat.zero_le _⟩

/-- The bytes stored in front of what the buffer still holds. -/
theorem take_stored {buf bytes : List UInt8} {len : ℕ} (hlen : len ≤ buf.length) :
    (buf.take len ++ bytes ++ buf.drop (len + bytes.length)).take (len + bytes.length) =
      buf.take len ++ bytes := by
  refine List.take_left' ?_
  rw [List.length_append, List.length_take, Nat.min_eq_left hlen]

theorem length_stored {buf bytes : List UInt8} {len size : ℕ} (hbuf : buf.length = size)
    (hlen : len + bytes.length ≤ size) :
    (buf.take len ++ bytes ++ buf.drop (len + bytes.length)).length = size := by
  simp only [List.length_append, List.length_take, List.length_drop]
  omega

/-- A result that fits the rest of the buffer is fed to the pending frame. -/
theorem feed_frames {pc : Pc} {buf bytes : List UInt8} {len calls : ℕ} {installed : List (List UInt8)}
    (hpc : pc = .recv) (hbuf : buf.length = sketchSize) (hlen : len < sketchSize) :
    feed sketchSize (frames ⟨pc,buf,len,calls,installed⟩) bytes =
      if len + bytes.length > sketchSize then none
      else some (frames ⟨.inner,buf.take len ++ bytes ++ buf.drop (len + bytes.length),
        len + bytes.length,calls+1,installed⟩) := by
  subst hpc
  have hpart : (buf.take len).length = len := by
    rw [List.length_take, hbuf, Nat.min_eq_left hlen.le]
  have hbefore : frames ⟨.recv,buf,len,calls,installed⟩ = ⟨buf.take len,installed⟩ := if_neg hlen.ne
  rw [hbefore]
  rcases lt_trichotomy (len + bytes.length) sketchSize with hlt | heq | hgt
  · rw [feed_of_lt (by rwa [hpart]), if_neg hlt.le.not_gt]
    simp only [frames, if_neg hlt.ne, take_stored (hlen.le.trans hbuf.ge)]
  · have hdrop : buf.drop (len + bytes.length) = [] := List.drop_eq_nil_of_le (hbuf.trans heq.symm).le
    rw [feed_of_eq (by rwa [hpart]), if_neg heq.le.not_gt]
    simp only [frames, if_pos heq, hdrop, List.append_nil]
  · rw [feed_of_gt (by rwa [hpart]), if_pos hgt]

theorem run_received {c : Loops} {n : ℕ} (h : Kept results n c) (hcalls : 0 < c.calls) :
    Runs.run (feed sketchSize) ⟨[],[]⟩ (received results (c.calls+1)) =
      feed sketchSize c.frames (results c.calls) := by
  rw [received_succ results hcalls, Runs.run_concat, h.frames_eq, Option.bind_some]

/-- A step keeps what holds, and counts as one. -/
theorem Kept.step {n : ℕ} {c d : Loops} (h : Kept results n c)
    (hstep : step (fun i => some (results i)) c = .ok d) : Kept results (n+1) d := by
  have hrun := run_received h
  obtain ⟨hshape,hframes,hsteps⟩ := h
  obtain ⟨pc,buf,len,calls,installed⟩ := c
  cases pc with
  | recvId =>
    obtain rfl := Except.ok.inj hstep
    obtain rfl : calls = 0 := hshape
    exact ⟨Nat.one_pos,hframes,by simp only [slack] at *; omega⟩
  | outer =>
    obtain rfl := Except.ok.inj hstep
    refine ⟨⟨hshape,List.length_replicate,Nat.zero_le _⟩,hframes,?_⟩
    have hpos : 0 < sketchSize := by decide
    simp only [slack, if_pos hpos] at *
    omega
  | inner =>
    obtain rfl := Except.ok.inj hstep
    obtain ⟨hcalls,hbuf,hlen⟩ := hshape
    by_cases hlt : len < sketchSize
    · refine ⟨?_,?_,?_⟩ <;> simp only [if_pos hlt]
      · exact ⟨hcalls,hbuf,hlt⟩
      · exact hframes
      · simp only [slack, if_pos hlt] at *
        omega
    · refine ⟨?_,?_,?_⟩ <;> simp only [if_neg hlt]
      · exact ⟨hcalls,le_antisymm hlen (not_lt.mp hlt)⟩
      · exact hframes
      · simp only [slack, if_neg hlt] at *
        omega
  | recv =>
    obtain ⟨hcalls,hbuf,hlen⟩ := hshape
    simp only [Loops.step] at hstep
    split_ifs at hstep with hover
    obtain rfl := Except.ok.inj hstep
    have hfits := not_lt.mp hover
    refine ⟨⟨Nat.succ_pos _,length_stored hbuf hfits,hfits⟩,?_,?_⟩
    · rw [hrun hcalls, feed_frames rfl hbuf hlen, if_neg hover]
    · simp only [slack] at *
      omega
  | install =>
    obtain rfl := Except.ok.inj hstep
    obtain ⟨hcalls,hlen⟩ := hshape
    simp only [frames, if_pos hlen] at hframes
    refine ⟨hcalls,?_,by simp only [slack] at *; omega⟩
    simp only [frames, if_pos hlen]
    exact hframes
  | close => exact hshape.elim

/-- Without the result -1 a step fails only where the pending frame overflows. -/
theorem Kept.step_error {n : ℕ} {c : Loops} {e : Stop} (h : Kept results n c)
    (hstep : Loops.step (fun i => some (results i)) c = .error e) :
    Runs.run (feed sketchSize) ⟨[],[]⟩ (received results (c.calls+1)) = none := by
  have hrun := run_received h
  have hshape := h.shape
  obtain ⟨pc,buf,len,calls,installed⟩ := c
  cases pc with
  | recv =>
    obtain ⟨hcalls,hbuf,hlen⟩ := hshape
    simp only [Loops.step] at hstep
    split_ifs at hstep with hover
    rw [hrun hcalls, feed_frames rfl hbuf hlen, if_pos hover]
  | recvId | outer | inner | install | close => cases hstep

theorem kept_after {n : ℕ} {c : Loops} (h : after (fun i => some (results i)) n = .ok c) :
    Kept results n c := by
  induction n generalizing c with
  | zero =>
    obtain rfl := Except.ok.inj h
    exact kept_start
  | succ n ih =>
    rw [after] at h
    cases hn : after (fun i => some (results i)) n with
    | error e =>
      rw [hn] at h
      cases h
    | ok d =>
      rw [hn] at h
      exact (ih hn).step h

/-- While the frames come out right there is a next step. -/
theorem exists_after (h : ∀ m, ∃ t, Runs.run (feed sketchSize) ⟨[],[]⟩ (received results m) = some t)
    (n : ℕ) : ∃ c, after (fun i => some (results i)) n = .ok c := by
  induction n with
  | zero => exact ⟨start,rfl⟩
  | succ n ih =>
    obtain ⟨c,hc⟩ := ih
    rw [after, hc]
    cases hstep : Loops.step (fun i => some (results i)) c with
    | ok d => exact ⟨d,hstep⟩
    | error e =>
      obtain ⟨t,ht⟩ := h (c.calls+1)
      rw [(kept_after hc).step_error hstep] at ht
      cases ht

end Loops

/-- The results of `recv` for a device that goes away: the id, the parts of the stream, and
then the end of the stream at every call. -/
def deviceResults (str : List UInt8) (chunks : List (List UInt8)) : ℕ → List UInt8
  | 0 => str
  | i+1 => chunks.getD i []

open Loops

/-- The state after some steps with such a device. -/
def afterDevice (str : List UInt8) (chunks : List (List UInt8)) (n : ℕ) : Except Stop Loops :=
  after (fun i => some (deviceResults str chunks i)) n

/-- The sketches copied are whole and follow each other in what the device has sent. -/
def WholeSnapshots (chunks : List (List UInt8)) (c : Loops) : Prop :=
  (∀ s ∈ c.installed, s.length = sketchSize) ∧ c.installed.flatten <+: chunks.flatten

/-- The loops are left after some steps, and only whole sketches have been copied. -/
def Ends (str : List UInt8) (chunks : List (List UInt8)) : Prop :=
  ∃ n c, afterDevice str chunks n = .ok c ∧ c.pc = .close ∧ WholeSnapshots chunks c

theorem received_device (str : List UInt8) (chunks : List (List UInt8)) (n : ℕ) :
    received (deviceResults str chunks) n <+: chunks ++ List.replicate n [] := by
  refine List.prefix_iff_eq_take.mpr (List.ext_getElem ?_ fun i hi hi' => ?_)
  · simp only [received, List.length_map, List.length_range, List.length_take, List.length_append,
      List.length_replicate]
    omega
  · simp only [received, List.getElem_map, List.getElem_range, deviceResults, List.getElem_take,
      List.getElem_append, List.getElem_replicate, List.getD_eq_getElem?_getD]
    split_ifs with hlt
    · rw [List.getElem?_eq_getElem hlt, Option.getD_some]
    · rw [List.getElem?_eq_none (not_lt.mp hlt), Option.getD_none]

/-- After the calls that return the stream, the sketches received are those that the loop
over results installs. -/
theorem installs_iff_frames {str : List UInt8} {chunks snapshots : List (List UInt8)} {n : ℕ}
    {c : Loops} (h : afterDevice str chunks n = .ok c) (hcalls : c.calls = chunks.length + 1) :
    Installs str chunks snapshots ↔ c.frames.done = snapshots := by
  have hreceived : received (deviceResults str chunks) c.calls = chunks := by
    rw [hcalls]
    exact (FiniteSums.map_range_getD chunks [] id).trans (List.map_id chunks)
  have hrun := (kept_after h).frames_eq
  rw [hreceived] at hrun
  rw [installs_iff_run, hrun]
  constructor
  · rintro ⟨p,hp,rfl⟩
    rw [Option.some.inj hp]
  · intro hdone
    exact ⟨_,rfl,hdone⟩

theorem wholeSnapshots_after {str : List UInt8} {chunks : List (List UInt8)} {n : ℕ} {c : Loops}
    (h : afterDevice str chunks n = .ok c) : WholeSnapshots chunks c := by
  have hsize : 0 < sketchSize := by decide
  have hsplit := run_split hsize _ _ (kept_after h).frames_eq
  have hdone : c.installed <+: c.frames.done := by
    unfold frames
    split <;> (try split_ifs) <;> simp
  obtain ⟨rest,hrest⟩ := hdone
  refine ⟨fun s hs => hsplit.done_length s (hrest ▸ List.mem_append_left rest hs),?_⟩
  have hsent : (received (deviceResults str chunks) c.calls).flatten <+: chunks.flatten := by
    obtain ⟨zs,hzs⟩ := received_device str chunks c.calls
    have := congrArg List.flatten hzs
    rw [List.flatten_append, List.flatten_append, List.flatten_replicate_nil, List.append_nil] at this
    exact ⟨_,this⟩
  refine List.IsPrefix.trans ?_ hsent
  rw [← hsplit.stream_eq, ← hrest, List.flatten_append, List.append_assoc]
  exact List.prefix_append _ _

theorem afterDevice_ne_close {str : List UInt8} {chunks : List (List UInt8)} {n : ℕ} {c : Loops}
    (h : afterDevice str chunks n = .ok c) : c.pc ≠ .close := by
  intro hclose
  have hshape := (kept_after h).shape
  rw [Shape, hclose] at hshape
  exact hshape

/-- The calls of `recv` go on without end, unless the stream overruns the buffer first. -/
theorem recv_without_end_iff (str : List UInt8) (chunks : List (List UInt8)) :
    (∀ k, ∃ n c, afterDevice str chunks n = .ok c ∧ k ≤ c.calls) ↔ Aligned sketchSize 0 chunks := by
  have hsize : 0 < sketchSize := by decide
  have haligned := run_isSome_iff chunks (⟨[],[]⟩ : Pending UInt8) hsize
  rw [List.length_nil] at haligned
  rw [← haligned]
  constructor
  · intro h
    obtain ⟨n,c,hc,hk⟩ := h (chunks.length + 1)
    have hpre : chunks <+: received (deviceResults str chunks) c.calls := by
      refine List.prefix_of_prefix_length_le (List.prefix_append chunks _)
        (received_device str chunks c.calls) ?_
      simp only [received, List.length_map, List.length_range]
      omega
    exact Runs.exists_run_of_prefix hpre (kept_after hc).frames_eq
  · rintro ⟨t,ht⟩ k
    have hall (m : ℕ) : ∃ u, Runs.run (feed sketchSize) ⟨[],[]⟩
        (received (deviceResults str chunks) m) = some u :=
      Runs.exists_run_of_prefix (received_device str chunks m)
        ((run_append_replicate_nil hsize chunks m).trans ht)
    obtain ⟨c,hc⟩ := exists_after hall (5 * k + 5)
    refine ⟨_,c,hc,?_⟩
    have hsteps := (kept_after hc).steps_le
    have hslack := c.slack_le
    omega

/-- Whatever the device has sent and however it is cut, the loops are never left: only
whole sketches are copied, and the calls of `recv` go on without end exactly when no
result runs past the end of the buffer. -/
theorem recieveSketch_never_ends (str : List UInt8) (chunks : List (List UInt8)) :
    ¬ Ends str chunks ∧
      (∀ n c, afterDevice str chunks n = .ok c → WholeSnapshots chunks c) ∧
      ((∀ k, ∃ n c, afterDevice str chunks n = .ok c ∧ k ≤ c.calls) ↔
        Aligned sketchSize 0 chunks) := by
  refine ⟨?_,fun n c => wholeSnapshots_after,recv_without_end_iff str chunks⟩
  rintro ⟨n,c,hc,hclose,-⟩
  exact afterDevice_ne_close hc hclose

/-- A device that has sent its id and one sketch and has gone away. -/
theorem ends_fails_after_one_sketch :
    ¬ Ends [49,0,0,0] [zeros 8192,zeros 8192,zeros 1048] := by
  rintro ⟨n,c,hc,hclose,-⟩
  exact afterDevice_ne_close hc hclose

end SketchMonitor
