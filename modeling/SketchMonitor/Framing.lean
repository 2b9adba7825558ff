import SketchMonitor.Runs

/-!
# Reassembling frames of one size from chunks

Chunks are appended to a pending frame, which is handed on when it is exactly full.
A chunk that runs past the end of the frame has no result. Such a receiver gets
through a stream if and only if every frame boundary is also the end of a chunk.
-/

namespace SketchMonitor
namespace Framing

variable {α : Type*}

/-- The pending part of a frame and the frames handed on so far. -/
structure Pending (α : Type*) where
  part : List α
  done : List (List α)

def feed (size : ℕ) (s : Pending α) (chunk : List α) : Option (Pending α) :=
  let part := s.part ++ chunk
  if part.length > size then none
  else if part.length = size then some ⟨[],s.done ++ [part]⟩
  else some ⟨part,s.done⟩

theorem feed_of_gt {size : ℕ} {s : Pending α} {c : List α} (h : size < s.part.length + c.length) :
    feed size s c = none := if_pos (by rwa [List.length_append])

theorem feed_of_eq {size : ℕ} {s : Pending α} {c : List α} (h : s.part.length + c.length = size) :
    feed size s c = some ⟨[],s.done ++ [s.part ++ c]⟩ := by
  simp [feed, h]

theorem feed_of_lt {size : ℕ} {s : Pending α} {c : List α} (h : s.part.length + c.length < size) :
    feed size s c = some ⟨s.part ++ c,s.done⟩ := by
  simp [feed, h.ne, h.le]

/-- The offsets at which a chunk ends, counted from `n`. -/
def cuts (n : ℕ) : List (List α) → List ℕ
  | [] => [n]
  | c :: cs => n :: cuts (n + c.length) cs

/-- Every frame boundary within the stream is one of the cuts. -/
def Aligned (size n : ℕ) (cs : List (List α)) : Prop :=
  ∀ k, 0 < k → k * size ≤ n + cs.flatten.length → k * size ∈ cuts n cs

theorem le_of_mem_cuts {m n : ℕ} {cs : List (List α)} (h : m ∈ cuts n cs) : n ≤ m := by
  induction cs generalizing n with
  | nil => exact (List.mem_singleton.mp h).ge
  | cons c cs ih =>
    rcases List.mem_cons.mp h with rfl | h
    · exact le_rfl
    · exact (Nat.le_add_right _ _).trans (ih h)

theorem mem_cuts_add (s : ℕ) {m n : ℕ} {cs : List (List α)} :
    m + s ∈ cuts (n + s) cs ↔ m ∈ cuts n cs := by
  induction cs generalizing n with
  | nil => simp [cuts]
  | cons c cs ih =>
    simp only [cuts, List.mem_cons, Nat.add_right_cancel_iff]
    rw [add_right_comm, ih]

section Aligned

variable {size n : ℕ} {c : List α} {cs : List (List α)}

/-- The first cut lies before the first boundary, so it never is one. -/
theorem mem_cuts_cons (hn : n < size) {k : ℕ} (hk : 0 < k) :
    k * size ∈ cuts n (c :: cs) ↔ k * size ∈ cuts (n + c.length) cs := by
  have hne : k * size ≠ n := by nlinarith
  simp [cuts, hne]

theorem aligned_nil (hn : n < size) : Aligned size n ([] : List (List α)) := by
  intro k hk hle
  simp only [List.flatten_nil, List.length_nil, add_zero] at hle
  nlinarith

theorem aligned_cons_of_lt (hn : n < size) :
    Aligned size n (c :: cs) ↔ Aligned size (n + c.length) cs := by
  refine forall_congr' fun k => ?_
  refine imp_congr_right fun hk => ?_
  rw [mem_cuts_cons hn hk, List.flatten_cons, List.length_append, add_assoc]

theorem aligned_size : Aligned size size cs ↔ Aligned size 0 cs := by
  have hshift (k : ℕ) : (k+1) * size ∈ cuts size cs ↔ k * size ∈ cuts 0 cs := by
    rw [Nat.succ_mul]
    simpa using @mem_cuts_add _ size (k * size) 0 cs
  constructor
  · intro h k hk hle
    exact (hshift k).mp (h (k+1) (Nat.succ_pos k) (by rw [Nat.succ_mul]; omega))
  · intro h k hk hle
    obtain ⟨j,rfl⟩ := Nat.exists_eq_succ_of_ne_zero hk.ne'
    refine (hshift j).mpr ?_
    rw [Nat.succ_mul] at hle
    rcases Nat.eq_zero_or_pos j with rfl | hj
    · cases cs <;> simp [cuts]
    · exact h j hj (by omega)

theorem not_aligned_of_lt (hn : n < size) (hc : size < n + c.length) :
    ¬ Aligned size n (c :: cs) := by
  intro h
  have hfirst := h 1 Nat.one_pos (by
    rw [List.flatten_cons, List.length_append]
    omega)
  rw [mem_cuts_cons hn Nat.one_pos] at hfirst
  have hle := le_of_mem_cuts hfirst
  omega

end Aligned

/-- The receiver gets through the chunks exactly when they are aligned. -/
theorem run_isSome_iff {size : ℕ} (cs : List (List α)) (s : Pending α) (hs : s.part.length < size) :
    (∃ t, Runs.run (feed size) s cs = some t) ↔ Aligned size s.part.length cs := by
  induction cs generalizing s with
  | nil => exact ⟨fun _ => aligned_nil hs,fun _ => ⟨s,rfl⟩⟩
  | cons c cs ih =>
    rw [Runs.run_cons]
    rcases lt_trichotomy (s.part.length + c.length) size with hlt | heq | hgt
    · have hlen : (s.part ++ c).length = s.part.length + c.length := List.length_append
      rw [feed_of_lt hlt, Option.bind_some, ih _ (hlen.trans_lt hlt), hlen, aligned_cons_of_lt hs]
    · have hempty : ([] : List α).length < size := (Nat.zero_le _).trans_lt hs
      rw [feed_of_eq heq, Option.bind_some, ih _ hempty, aligned_cons_of_lt hs, heq, aligned_size,
        List.length_nil]
    · rw [feed_of_gt hgt, Option.bind_none]
      exact ⟨fun ⟨t,ht⟩ => by simp at ht,fun h => absurd h (not_aligned_of_lt hs hgt)⟩

/-- What a receiver that has got through some chunks has made of them. -/
structure Split (size : ℕ) (stream : List α) (s : Pending α) : Prop where
  stream_eq : s.done.flatten ++ s.part = stream
  done_length : ∀ f ∈ s.done, f.length = size
  part_length : s.part.length < size

theorem Split.feed {size : ℕ} {stream c : List α} {s t : Pending α} (hs : Split size stream s)
    (h : feed size s c = some t) : Split size (stream ++ c) t := by
  obtain ⟨hstream,hdone,hpart⟩ := hs
  rcases lt_trichotomy (s.part.length + c.length) size with hlt | heq | hgt
  · rw [feed_of_lt hlt] at h
    obtain rfl := Option.some.inj h
    exact ⟨by simp [← hstream],hdone,by simpa using hlt⟩
  · rw [feed_of_eq heq] at h
    obtain rfl := Option.some.inj h
    refine ⟨by simp [← hstream],fun f hf => ?_,(Nat.zero_le _).trans_lt hpart⟩
    rcases List.mem_append.mp hf with hf | hf
    · exact hdone f hf
    · rw [List.mem_singleton.mp hf, List.length_append, heq]
  · rw [feed_of_gt hgt] at h
    exact absurd h (by simp)

theorem run_split {size : ℕ} (hsize : 0 < size) (cs : List (List α)) (s : Pending α)
    (h : Runs.run (feed size) ⟨[],[]⟩ cs = some s) : Split size cs.flatten s := by
  refine Runs.run_preserves (fun cs s => Split size cs.flatten s)
    ⟨rfl,by simp,by simpa using hsize⟩ ?_ cs s h
  intro cs c s t hs hc
  rw [List.flatten_concat]
  exact hs.feed hc

/-- An empty chunk leaves the receiver as it is. -/
theorem feed_nil {size : ℕ} {s : Pending α} (hs : s.part.length < size) : feed size s [] = some s := by
  rw [feed_of_lt (by simpa using hs), List.append_nil]

theorem run_replicate_nil {size : ℕ} {s : Pending α} (hs : s.part.length < size) (k : ℕ) :
    Runs.run (feed size) s (List.replicate k []) = some s := by
  induction k with
  | zero => rfl
  | succ k ih => rw [List.replicate_succ, Runs.run_cons, feed_nil hs, Option.bind_some, ih]

/-- Empty chunks after the last one change nothing. -/
theorem run_append_replicate_nil {size : ℕ} (hsize : 0 < size) (cs : List (List α)) (k : ℕ) :
    Runs.run (feed size) ⟨[],[]⟩ (cs ++ List.replicate k []) = Runs.run (feed size) ⟨[],[]⟩ cs := by
  rw [Runs.run_append]
  cases hrun : Runs.run (feed size) ⟨[],[]⟩ cs with
  | none => rfl
  | some s => exact run_replicate_nil (run_split hsize cs s hrun).part_length k

theorem length_flatten_of_length {size : ℕ} {fs : List (List α)} (h : ∀ f ∈ fs, f.length = size) :
    fs.flatten.length = fs.length * size := by
  rw [List.length_flatten, List.map_congr_left h]
  simp

/-- Frames of one size are cut off a stream in the same way. -/
theorem isPrefix_of_flatten {size : ℕ} (hsize : 0 < size) {fs gs : List (List α)}
    (hf : ∀ f ∈ fs, f.length = size) (hg : ∀ g ∈ gs, g.length = size)
    (h : fs.flatten <+: gs.flatten) : fs <+: gs := by
  induction fs generalizing gs with
  | nil => exact ⟨gs,rfl⟩
  | cons f fs ih =>
    obtain ⟨hf,hfs⟩ := List.forall_mem_cons.mp hf
    obtain ⟨rest,hrest⟩ := h
    cases gs with
    | nil =>
      have hlen := congrArg List.length hrest
      simp only [List.flatten_cons, List.length_append, List.flatten_nil, List.length_nil] at hlen
      omega
    | cons g gs =>
      obtain ⟨hg,hgs⟩ := List.forall_mem_cons.mp hg
      rw [List.flatten_cons, List.flatten_cons, List.append_assoc] at hrest
      obtain ⟨rfl,htail⟩ := List.append_inj hrest (hf.trans hg.symm)
      exact List.cons_prefix_cons.mpr ⟨rfl,ih hfs hgs ⟨rest,htail⟩⟩

/-- Frames of one size are determined by the stream. -/
theorem Split.done_eq_iff {size : ℕ} {stream : List α} {s : Pending α} (hs : Split size stream s)
    {frames : List (List α)} (hframes : ∀ f ∈ frames, f.length = size)
    (hshort : stream.length < (frames.length + 1) * size) :
    s.done = frames ↔ frames.flatten <+: stream := by
  have hstream := hs.stream_eq
  have htotal : s.done.length * size + s.part.length = stream.length := by
    rw [← hstream, List.length_append, length_flatten_of_length hs.done_length]
  constructor
  · rintro rfl
    exact ⟨s.part,hstream⟩
  · rintro ⟨rest,hrest⟩
    have hrest_total : frames.length * size + rest.length = stream.length := by
      rw [← hrest, List.length_append, length_flatten_of_length hframes]
    have hpart := hs.part_length
    have hcount : s.done.length = frames.length := by
      have hle₁ : s.done.length < frames.length + 1 := by
        by_contra hge
        have := Nat.mul_le_mul_right size (not_lt.mp hge)
        omega
      have hle₂ : frames.length < s.done.length + 1 := by
        by_contra hge
        have := Nat.mul_le_mul_right size (not_lt.mp hge)
        rw [Nat.succ_mul] at this
        omega
      omega
    have hflat : s.done.flatten = frames.flatten := by
      refine List.append_inj_left (hstream.trans hrest.symm) ?_
      rw [length_flatten_of_length hs.done_length, length_flatten_of_length hframes, hcount]
    refine List.eq_iff_flatten_eq.mpr ⟨hflat,?_⟩
    rw [List.map_congr_left hs.done_length, List.map_congr_left hframes]
    simp [hcount]

/-- Which streams hand on exactly the given frames. -/
theorem run_done_iff {size : ℕ} (hsize : 0 < size) (cs : List (List α)) {frames : List (List α)}
    (hframes : ∀ f ∈ frames, f.length = size)
    (hshort : cs.flatten.length < (frames.length + 1) * size) :
    (∃ s, Runs.run (feed size) ⟨[],[]⟩ cs = some s ∧ s.done = frames) ↔
      frames.flatten <+: cs.flatten ∧ ∀ k ≤ frames.length, k * size ∈ cuts 0 cs := by
  have hempty : (⟨[],[]⟩ : Pending α).part.length < size := hsize
  constructor
  · rintro ⟨s,hrun,hdone⟩
    have hpre := ((run_split hsize cs s hrun).done_eq_iff hframes hshort).mp hdone
    refine ⟨hpre,fun k hk => ?_⟩
    rcases Nat.eq_zero_or_pos k with rfl | hpos
    · cases cs <;> simp [cuts]
    · refine (run_isSome_iff cs _ hempty).mp ⟨s,hrun⟩ k hpos ?_
      have hle := Nat.mul_le_mul_right size hk
      have hfit := hpre.length_le
      rw [length_flatten_of_length hframes] at hfit
      omega
  · rintro ⟨hpre,hcuts⟩
    obtain ⟨s,hrun⟩ := (run_isSome_iff cs _ hempty).mpr fun k hk hle => by
      refine hcuts k ?_
      by_contra hgt
      have hmul := Nat.mul_le_mul_right size (not_le.mp hgt)
      simp only [List.length_nil] at hle
      rw [Nat.succ_eq_add_one] at hmul
      omega
    exact ⟨s,hrun,((run_split hsize cs s hrun).done_eq_iff hframes hshort).mpr hpre⟩

end Framing
end SketchMonitor
