import SketchMonitor.Framing

/-!
# The receive loop of the server

A device sends a 4-byte id and then whole sketches. The loop asks for `BUFSIZ`
bytes however much of the current sketch is missing, so a result that starts in
one sketch and ends in the next is written past the end of the buffer. The
first result is taken for the id even when it is shorter than four bytes.
-/

namespace SketchMonitor

open Framing

/-- `sizeof(ElasticSketch<BUCKET_NUM, TOT_MEM_IN_BYTES>)`: 64 buckets of 124 bytes, the
counters, the histogram and three pointers. -/
def sketchSize : ℕ := 64*124 + 8 + (8 + (16*1024 - 64*124) + 256*4 + 8)

def idLength : ℕ := 4

/-- Why `recieveSketch` does not go on: `recv` has returned -1, or a `memcpy` runs past
the end of `buf`. -/
inductive Stop
  | exitFailure
  | overrun
  deriving DecidableEq

/-- The locals of the receive loop between two calls of `recv`, and the sketches
copied to `ptr` so far. -/
structure Receiver where
  buf : List UInt8
  buf_length : buf.length = sketchSize
  len : ℕ
  len_lt : len < sketchSize
  installed : List (List UInt8)

namespace Receiver

/-- `memset(buf, 0, ...)` and `len = 0`. -/
def next (installed : List (List UInt8)) : Receiver :=
  ⟨List.replicate sketchSize 0,by simp,0,by decide,installed⟩

/-- `memcpy((buf + len), buf_r, r)`, `len += r`, and the copy of a full buffer. -/
def store (st : Receiver) (bytes : List UInt8) : Except Stop Receiver :=
  let r := bytes.length
  if hover : st.len + r > sketchSize then .error .overrun
  else
    let buf := st.buf.take st.len ++ bytes ++ st.buf.drop (st.len + r)
    have hbuf : buf.length = sketchSize := by
      have := st.buf_length
      simp only [buf, r, List.length_append, List.length_take, List.length_drop] at *
      omega
    if hfull : st.len + r = sketchSize then .ok (next (st.installed ++ [buf]))
    else .ok ⟨buf,hbuf,st.len + r,by omega,st.installed⟩

/-- One call of `recv`; `none` is the result -1. -/
def recv (st : Receiver) : Option (List UInt8) → Except Stop Receiver
  | none => .error .exitFailure
  | some bytes => st.store bytes

/-- The bytes of the current sketch received so far. -/
def written (st : Receiver) : List UInt8 := st.buf.take st.len

end Receiver

/-- The connection after the results of `recv`: the one for the id and those of the loop. -/
def recieveSketch (str : Option (List UInt8)) (results : List (Option (List UInt8))) :
    Except Stop Receiver :=
  match str with
  | none => .error .exitFailure
  | some _ => results.foldlM Receiver.recv (Receiver.next [])

namespace Receiver

def pending (st : Receiver) : Pending UInt8 := ⟨st.written,st.installed⟩

@[simp] theorem written_length (st : Receiver) : st.written.length = st.len := by
  have := st.buf_length
  have := st.len_lt
  simp only [written, List.length_take]
  omega

/-- Storing a result feeds the bytes to the pending sketch. -/
theorem store_spec (st : Receiver) (bytes : List UInt8) :
    (st.store bytes = .error .overrun ∧ feed sketchSize st.pending bytes = none) ∨
      ∃ t, st.store bytes = .ok t ∧ feed sketchSize st.pending bytes = some t.pending := by
  have hlen : st.pending.part.length = st.len := st.written_length
  rcases lt_trichotomy (st.len + bytes.length) sketchSize with hlt | heq | hgt
  · right
    have htake : (st.written ++ bytes ++ st.buf.drop (st.len + bytes.length)).take
        (st.len + bytes.length) = st.written ++ bytes :=
      List.take_left' (by rw [List.length_append, written_length])
    rw [feed_of_lt (by rwa [hlen])]
    simp only [store, dif_neg hlt.le.not_gt, dif_neg hlt.ne]
    exact ⟨_,rfl,congrArg (fun part => some (Pending.mk part st.installed)) htake.symm⟩
  · right
    have hdrop : st.buf.drop (st.len + bytes.length) = [] :=
      List.drop_eq_nil_of_le (by rw [st.buf_length, heq])
    rw [feed_of_eq (by rwa [hlen])]
    simp only [store, dif_neg heq.le.not_gt, dif_pos heq, hdrop, List.append_nil]
    exact ⟨_,rfl,rfl⟩
  · left
    refine ⟨?_,feed_of_gt (by rwa [hlen])⟩
    simp only [store, dif_pos hgt]

/-- The loop on results without error runs the abstract receiver. -/
theorem run_iff (chunks : List (List UInt8)) (st : Receiver) (frames : List (List UInt8)) :
    (∃ t, (chunks.map some).foldlM recv st = .ok t ∧ t.installed = frames) ↔
      ∃ p, Runs.run (feed sketchSize) st.pending chunks = some p ∧ p.done = frames := by
  induction chunks generalizing st with
  | nil =>
    constructor
    · rintro ⟨t,ht,rfl⟩
      obtain rfl : st = t := Except.ok.inj ht
      exact ⟨_,rfl,rfl⟩
    · rintro ⟨p,hp,rfl⟩
      obtain rfl : st.pending = p := Option.some.inj hp
      exact ⟨st,rfl,rfl⟩
  | cons c cs ih =>
    rw [List.map_cons, List.foldlM_cons, Runs.run_cons]
    simp only [recv]
    rcases st.store_spec c with ⟨hstore,hfeed⟩ | ⟨t,hstore,hfeed⟩
    · rw [hstore, hfeed]
      constructor
      · rintro ⟨t,ht,-⟩
        exact absurd ht (by intro h; cases h)
      · rintro ⟨p,hp,-⟩
        exact absurd hp (by simp)
    · rw [hstore, hfeed]
      exact ih t

end Receiver

/-- The connection has installed the given sketches in order, all within the buffer. -/
def Installs (str : List UInt8) (chunks : List (List UInt8)) (snapshots : List (List UInt8)) : Prop :=
  ∃ r, recieveSketch (some str) (chunks.map some) = .ok r ∧ r.installed = snapshots

theorem installs_iff_run (str : List UInt8) (chunks snapshots : List (List UInt8)) :
    Installs str chunks snapshots ↔
      ∃ p, Runs.run (feed sketchSize) ⟨[],[]⟩ chunks = some p ∧ p.done = snapshots :=
  Receiver.run_iff chunks (Receiver.next []) snapshots

theorem installs_iff_cuts {id str : List UInt8} {snapshots chunks : List (List UInt8)}
    (hid : id.length = idLength) (hsnap : ∀ s ∈ snapshots, s.length = sketchSize)
    (hcut : str ++ chunks.flatten = id ++ snapshots.flatten) :
    Installs str chunks snapshots ↔ snapshots.flatten <+: chunks.flatten ∧
      ∀ k ≤ snapshots.length, k * sketchSize ∈ cuts 0 chunks := by
  have hsize : idLength < sketchSize := by decide
  have htotal := congrArg List.length hcut
  rw [List.length_append, List.length_append, hid, length_flatten_of_length hsnap] at htotal
  rw [installs_iff_run, run_done_iff (by omega) chunks hsnap (by rw [Nat.succ_mul]; omega)]

/-- With a whole id in the first result, what follows it is the sketches. -/
theorem prefix_of_whole_id {id str : List UInt8} {snapshots chunks : List (List UInt8)}
    (hid : str.length = id.length) (hcut : str ++ chunks.flatten = id ++ snapshots.flatten) :
    snapshots.flatten <+: chunks.flatten := by
  rw [List.append_inj_right hcut hid]

/-- Of a stream cut into results, the loop installs exactly the sketches that were sent
if and only if every boundary between sketches, counted from the end of the first
result, is the end of a result, and, should the first result be shorter than the id,
what follows it still begins with the sketches. -/
theorem installs_iff (id str : List UInt8) (snapshots chunks : List (List UInt8))
    (hid : id.length = idLength) (hsnap : ∀ s ∈ snapshots, s.length = sketchSize)
    (hcut : str ++ chunks.flatten = id ++ snapshots.flatten) :
    Installs str chunks snapshots ↔
      (str.length = idLength ∨ snapshots.flatten <+: chunks.flatten) ∧
        ∀ k ≤ snapshots.length, k * sketchSize ∈ cuts 0 chunks := by
  rw [installs_iff_cuts hid hsnap hcut, and_congr_left_iff]
  intro _
  constructor
  · exact Or.inr
  · rintro (hstr | hpre)
    · exact prefix_of_whole_id (hstr.trans hid.symm) hcut
    · exact hpre

def zeros (n : ℕ) : List UInt8 := List.replicate n 0

@[simp] theorem zeros_length (n : ℕ) : (zeros n).length = n := List.length_replicate

theorem zeros_append (m n : ℕ) : zeros m ++ zeros n = zeros (m + n) :=
  List.replicate_append_replicate

theorem installs_iff_one_sketch :
    Installs [49,0,0,0] [zeros 8192,zeros 8192,zeros 1048] [zeros sketchSize] := by
  have hsize : sketchSize = 8192 + (8192 + 1048) := rfl
  refine (installs_iff [49,0,0,0] [49,0,0,0] _ _ rfl (by simp only [List.mem_singleton,
    forall_eq, zeros_length]) ?_).mpr ⟨.inl rfl,fun k hk => ?_⟩
  · simp only [List.flatten_cons, List.flatten_nil, List.append_nil, zeros_append, hsize]
  · simp only [List.length_singleton] at hk
    simp only [cuts, zeros_length, hsize]
    interval_cases k <;> decide

/-- The third result holds the end of the first sketch and the start of the second. -/
theorem installs_fails_straddling :
    ¬ Installs [49,0,0,0] [zeros 8192,zeros 8192,zeros 8192,zeros 8192,zeros 2096]
      [zeros sketchSize,zeros sketchSize] := by
  have hsize : sketchSize = 17432 := rfl
  have hcut : zeros 8192 ++ (zeros 8192 ++ (zeros 8192 ++ (zeros 8192 ++ zeros 2096))) =
      zeros sketchSize ++ zeros sketchSize := by
    simp only [zeros_append, hsize]
  intro h
  have hcuts := ((@installs_iff_cuts [49,0,0,0] _ _ _ rfl (by simp) ?_).mp h).2 1 (by decide)
  · simp only [cuts, zeros_length, hsize] at hcuts
    exact absurd hcuts (by decide)
  · simpa only [List.flatten_cons, List.flatten_nil, List.append_nil] using congrArg _ hcut

end SketchMonitor
