import SketchMonitor.MemoryCopy
import SketchMonitor.Mutex
import SketchMonitor.PacketHandler
import SketchMonitor.ReportTotals
import SketchMonitor.SketchMemory

/-!
# The two threads of a device

One thread captures packets and inserts them, in two writes to the memory of the sketch, and
the other one copies this memory byte by byte and sends the copy. Both lock `mtx`. So whatever
the order of their statements, every copy sent is the sketch of the first packets, and later
copies do not have fewer packets.
-/

namespace SketchMonitor
namespace Device

open ElasticSketch MemoryCopy Mutex

variable (hh lh : Hashing)

inductive Thread
  | capture
  | deliver
  deriving DecidableEq

/-- The captured packets to come, each with the bytes the heap has left in its buffer, and the
result of the heavy part for the key being inserted. -/
structure Capture where
  frames : List (Frame × (ℕ → UInt8))
  result : Option InsertResult

/-- The buffer of `deliverSketch`, whether it holds a copy to be sent, and the copies sent. -/
structure Deliver where
  buf : List UInt8
  copied : Bool
  sent : List (List UInt8)

abbrev Own : Thread → Type
  | .capture => Capture
  | .deliver => Deliver

/-- `sizeof(ElasticSketch)`. -/
def sketchBytes : ℕ := (SketchImage.layout hh lh).size

/-- `heavy_part.insert` on the sketch in memory. -/
def heavyInsert (key : Key) (p : List UInt8 × Capture) : Option (List UInt8 × Capture) :=
  let s := read hh lh p.1
  let r := s.heavyPart.insert key (UInt32.ofInt 1)
  some (write p.1 ⟨r.1,s.lightPart⟩,{ p.2 with result := some r.2 })

/-- The `switch` on the result. -/
def lightInsert (key : Key) (frames : List (Frame × (ℕ → UInt8))) (p : List UInt8 × Capture) :
    Option (List UInt8 × Capture) :=
  let s := read hh lh p.1
  p.2.result.bind fun r => (handOff s.lightPart key r).map fun l =>
    (write p.1 ⟨s.heavyPart,l⟩,⟨frames,none⟩)

/-- `packetHandler` for the next packet. -/
def nextCapture (ip servIp : List Char) (c : Capture) : Option (Cmd (List UInt8) Capture) :=
  match c.frames with
  | [] => none
  | (f,heap) :: frames =>
    match insertedKey ip servIp (f.content heap) with
    | none => some (.own { c with frames := frames })
    | some key => some (.locked [heavyInsert hh lh key,lightInsert hh lh key frames])

def bufRegion : Region (List UInt8 × Deliver) UInt8 where
  get p := p.2.buf
  set p m := (p.1,{ p.2 with buf := m })
  get_set _ _ := rfl
  set_get _ := rfl
  set_set _ _ _ := rfl

def markCopied (p : List UInt8 × Deliver) : Option (List UInt8 × Deliver) :=
  some (p.1,{ p.2 with copied := true })

/-- The loop of `deliverSketch`. -/
def nextDeliver (d : Deliver) : Option (Cmd (List UInt8) Deliver) :=
  if d.copied then some (.own { d with copied := false, sent := d.sent ++ [d.buf] })
  else some (.locked (memcpy Prod.fst bufRegion (sketchBytes hh lh) ++ [markCopied]))

def next (ip servIp : List Char) : ∀ i, Own i → Option (Cmd (List UInt8) (Own i))
  | .capture => nextCapture hh lh ip servIp
  | .deliver => nextDeliver hh lh

/-- The memory of a new sketch, which was `raw` before. -/
def start (raw buf : List UInt8) (frames : List (Frame × (ℕ → UInt8))) : State (List UInt8) Own where
  shared := write raw (clear hh lh)
  own
    | .capture => ⟨frames,none⟩
    | .deliver => ⟨buf,false,[]⟩
  holder := none

/-- The keys that a capture inserts. -/
def accepted (ip servIp : List Char) (frames : List (Frame × (ℕ → UInt8))) : List Key :=
  frames.filterMap fun p => insertedKey ip servIp (p.1.content p.2)

/-- Copies of the sketch after growing numbers of keys, at most `n`. -/
def Snapshots (keys : List Key) (n : ℕ) (images : List (List UInt8)) : Prop :=
  ∃ ks : List ℕ, ks.Pairwise (· ≤ ·) ∧ (∀ k ∈ ks, k ≤ n) ∧
    List.Forall₂ (fun k m => m.length = sketchBytes hh lh ∧
      insertAll hh lh (keys.take k) = some (read hh lh m)) ks images

variable {hh lh}

theorem Snapshots.mono {keys : List Key} {n n' : ℕ} {images : List (List UInt8)}
    (h : Snapshots hh lh keys n images) (hn : n ≤ n') : Snapshots hh lh keys n' images := by
  obtain ⟨ks,hsorted,hle,himages⟩ := h
  exact ⟨ks,hsorted,fun k hk => (hle k hk).trans hn,himages⟩

theorem Snapshots.concat {keys : List Key} {n : ℕ} {images : List (List UInt8)} {m : List UInt8}
    (h : Snapshots hh lh keys n images) (hm : m.length = sketchBytes hh lh)
    (hstate : insertAll hh lh (keys.take n) = some (read hh lh m)) :
    Snapshots hh lh keys n (images ++ [m]) := by
  obtain ⟨ks,hsorted,hle,himages⟩ := h
  refine ⟨ks ++ [n],?_,?_,List.rel_append himages (.cons ⟨hm,hstate⟩ .nil)⟩
  · simpa [List.pairwise_append] using ⟨hsorted,hle⟩
  · simpa [or_imp, forall_and] using hle

theorem Snapshots.of_append {keys : List Key} {n : ℕ} {images rest : List (List UInt8)}
    (h : Snapshots hh lh keys n (images ++ rest)) : Snapshots hh lh keys n images := by
  obtain ⟨ks,hsorted,hle,himages⟩ := h
  refine ⟨ks.take images.length,hsorted.sublist (List.take_sublist _ _),
    fun k hk => hle k (List.mem_of_mem_take hk),?_⟩
  simpa using List.forall₂_take images.length himages

theorem Snapshots.of_mem {keys : List Key} {n : ℕ} {images : List (List UInt8)} {m : List UInt8}
    (h : Snapshots hh lh keys n images) (hm : m ∈ images) : m.length = sketchBytes hh lh ∧
      ∃ k ≤ n, insertAll hh lh (keys.take k) = some (read hh lh m) := by
  obtain ⟨ks,-,hle,himages⟩ := h
  induction himages with
  | nil => exact absurd hm List.not_mem_nil
  | @cons k m' ks _ himage _ ih =>
    rcases List.mem_cons.mp hm with rfl | hm
    · exact ⟨himage.1,k,hle k List.mem_cons_self,himage.2⟩
    · exact ih hm fun i hi => hle i (List.mem_cons_of_mem _ hi)

/-- What the atomic machine keeps, with `n` of the keys inserted. -/
structure Inv (hh lh : Hashing) (keys : List Key) (ip servIp : List Char) (n : ℕ)
    (a : List UInt8 × ∀ i, Own i) : Prop where
  memory : a.1.length = sketchBytes hh lh
  le_length : n ≤ keys.length
  rest : keys.drop n = accepted ip servIp (a.2 .capture).frames
  state : insertAll hh lh (keys.take n) = some (read hh lh a.1)
  buf : (a.2 .deliver).buf.length = sketchBytes hh lh
  sent : Snapshots hh lh keys n
    ((a.2 .deliver).sent ++ if (a.2 .deliver).copied then [(a.2 .deliver).buf] else [])

theorem length_write {m : List UInt8} (hm : m.length = sketchBytes hh lh) (s : ElasticSketch hh lh) :
    (write m s).length = sketchBytes hh lh :=
  (SketchImage.layout hh lh).length_put m _ hm

/-- The two writes of an insertion. -/
theorem runBody_insert {m : List UInt8} (c : Capture) (key : Key)
    (frames : List (Frame × (ℕ → UInt8))) (hm : m.length = sketchBytes hh lh)
    (hlight : (read hh lh m).lightPart.HistogramOk) :
    runBody (m,c) [heavyInsert hh lh key,lightInsert hh lh key frames] =
      ((read hh lh m).insert key 1).map fun t =>
        (write (write m ⟨t.heavyPart,(read hh lh m).lightPart⟩) t,⟨frames,none⟩) := by
  set s := read hh lh m
  set r := s.heavyPart.insert key (UInt32.ofInt 1) with hr
  set m₁ := write m (⟨r.1,s.lightPart⟩ : ElasticSketch hh lh) with hm₁
  have hread : read hh lh m₁ = ⟨r.1,s.lightPart⟩ := read_write hm hlight
  have hheavy : heavyInsert hh lh key (m,c) = some (m₁,{ c with result := some r.2 }) := rfl
  have hlightInsert : lightInsert hh lh key frames (m₁,{ c with result := some r.2 }) =
      (handOff s.lightPart key r.2).map fun l =>
        (write m₁ (⟨r.1,l⟩ : ElasticSketch hh lh),⟨frames,none⟩) := by
    simp only [lightInsert, hread, Option.bind_some]
  rw [runBody, Runs.run_cons, hheavy, Option.bind_some, Runs.run_cons, hlightInsert,
    ElasticSketch.insert, ← hr, Option.map_map]
  exact Option.bind_fun_some _

theorem histogramOk_of_insert {s t : ElasticSketch hh lh} {key : Key}
    (hs : s.lightPart.HistogramOk) (h : s.insert key 1 = some t) : t.lightPart.HistogramOk := by
  obtain ⟨l,hl,rfl⟩ := Option.map_eq_some_iff.mp h
  exact handOff_histogramOk hs hl

theorem read_insert {m : List UInt8} {t : ElasticSketch hh lh} {key : Key}
    (hm : m.length = sketchBytes hh lh) (hlight : (read hh lh m).lightPart.HistogramOk)
    (h : (read hh lh m).insert key 1 = some t) :
    read hh lh (write (write m ⟨t.heavyPart,(read hh lh m).lightPart⟩) t) = t :=
  read_write (length_write hm _) (histogramOk_of_insert hlight h)

theorem runBody_copy {m : List UInt8} {d : Deliver} (hm : m.length = sketchBytes hh lh)
    (hbuf : d.buf.length = sketchBytes hh lh) :
    runBody (m,d) (memcpy Prod.fst bufRegion (sketchBytes hh lh) ++ [markCopied]) =
      some (m,{ d with buf := m, copied := true }) := by
  have hcopy := run_memcpy Prod.fst bufRegion (fun _ _ => rfl) (t := (m,d)) hm hbuf
  rw [runBody, Runs.run_concat, hcopy]
  rfl

theorem histogramOk_of_insertAll {keys : List Key} {s : ElasticSketch hh lh}
    (h : insertAll hh lh keys = some s) : s.lightPart.HistogramOk :=
  (reachable_of_insertAll h).histogramOk

variable {keys : List Key} {ip servIp : List Char} {n : ℕ} {a : List UInt8 × ∀ i, Own i}

theorem accepted_cons (p : Frame × (ℕ → UInt8)) (frames : List (Frame × (ℕ → UInt8))) :
    accepted ip servIp (p :: frames) =
      (insertedKey ip servIp (p.1.content p.2)).toList ++ accepted ip servIp frames := by
  rw [accepted, List.filterMap_cons]
  cases insertedKey ip servIp (p.1.content p.2) <;> rfl

/-- A packet that is not accepted leaves the sketch alone. -/
theorem Inv.skip (h : Inv hh lh keys ip servIp n a) {f : Frame} {heap : ℕ → UInt8}
    {frames : List (Frame × (ℕ → UInt8))} (hframes : (a.2 .capture).frames = (f,heap) :: frames)
    (hkey : insertedKey ip servIp (f.content heap) = none) :
    Inv hh lh keys ip servIp n
      (a.1,Function.update a.2 .capture { a.2 .capture with frames := frames }) where
  memory := h.memory
  le_length := h.le_length
  rest := by
    rw [h.rest, hframes, accepted_cons, hkey]
    rfl
  state := h.state
  buf := h.buf
  sent := h.sent

theorem Inv.insert (h : Inv hh lh keys ip servIp n a) {f : Frame}
    {heap : ℕ → UInt8} {key : Key} {m : List UInt8}
    {frames : List (Frame × (ℕ → UInt8))} (hframes : (a.2 .capture).frames = (f,heap) :: frames)
    (hkey : insertedKey ip servIp (f.content heap) = some key) (hm : m.length = sketchBytes hh lh)
    (hins : (read hh lh a.1).insert key 1 = some (read hh lh m)) :
    Inv hh lh keys ip servIp (n+1)
      (m,Function.update a.2 .capture ⟨frames,none⟩) := by
  have hdrop : keys.drop n = key :: accepted ip servIp frames := by
    rw [h.rest, hframes, accepted_cons, hkey]
    rfl
  have hlt : n < keys.length := by
    by_contra hge
    rw [List.drop_eq_nil_of_le (not_lt.mp hge)] at hdrop
    exact List.cons_ne_nil _ _ hdrop.symm
  obtain ⟨hget,hrest⟩ : keys[n] = key ∧ keys.drop (n+1) = accepted ip servIp frames := by
    rwa [List.drop_eq_getElem_cons hlt, List.cons.injEq] at hdrop
  refine ⟨hm,hlt,hrest,?_,h.buf,h.sent.mono n.le_succ⟩
  have hstate := h.state
  rw [insertAll] at hstate ⊢
  rw [List.take_succ_eq_append_getElem hlt, Runs.run_concat, hstate, Option.bind_some, hget]
  exact hins

theorem Inv.copy (h : Inv hh lh keys ip servIp n a)
    (hcopied : (a.2 .deliver).copied = false) :
    Inv hh lh keys ip servIp n
      (a.1,Function.update a.2 .deliver { a.2 .deliver with buf := a.1, copied := true }) where
  memory := h.memory
  le_length := h.le_length
  rest := h.rest
  state := h.state
  buf := h.memory
  sent := by
    have hsent := h.sent
    rw [hcopied, if_neg Bool.false_ne_true, List.append_nil] at hsent
    exact hsent.concat h.memory h.state

theorem Inv.send (h : Inv hh lh keys ip servIp n a)
    (hcopied : (a.2 .deliver).copied = true) :
    Inv hh lh keys ip servIp n
      (a.1,Function.update a.2 .deliver { a.2 .deliver with
        copied := false, sent := (a.2 .deliver).sent ++ [(a.2 .deliver).buf] }) where
  memory := h.memory
  le_length := h.le_length
  rest := h.rest
  state := h.state
  buf := h.buf
  sent := by
    have hsent := h.sent
    rw [hcopied, if_pos rfl] at hsent
    change Snapshots hh lh keys n ((a.2 .deliver).sent ++ [(a.2 .deliver).buf] ++ [])
    rwa [List.append_nil]

section Next

variable {c : Capture} {d : Deliver} {frames : List (Frame × (ℕ → UInt8))} {f : Frame}
  {heap : ℕ → UInt8}

theorem next_skip (hframes : c.frames = (f,heap) :: frames)
    (hkey : insertedKey ip servIp (f.content heap) = none) :
    next hh lh ip servIp .capture c = some (.own { c with frames := frames }) := by
  simp only [next, nextCapture, hframes, hkey]

theorem next_insert {key : Key} (hframes : c.frames = (f,heap) :: frames)
    (hkey : insertedKey ip servIp (f.content heap) = some key) :
    next hh lh ip servIp .capture c =
      some (.locked [heavyInsert hh lh key,lightInsert hh lh key frames]) := by
  simp only [next, nextCapture, hframes, hkey]

theorem next_send (hcopied : d.copied = true) : next hh lh ip servIp .deliver d =
    some (.own { d with copied := false, sent := d.sent ++ [d.buf] }) := by
  simp only [next, nextDeliver, hcopied, if_true]

theorem next_copy (hcopied : d.copied = false) : next hh lh ip servIp .deliver d =
    some (.locked (memcpy Prod.fst bufRegion (sketchBytes hh lh) ++ [markCopied])) := by
  simp only [next, nextDeliver, hcopied, if_neg Bool.false_ne_true]

end Next

/-- A thread inserts a packet, copies the sketch or does nothing to it. -/
theorem Inv.atomicStep {a' : List UInt8 × ∀ i, Own i} {i : Thread}
    (h : Inv hh lh keys ip servIp n a)
    (hstep : atomicStep (next hh lh ip servIp) a i = some a') :
    ∃ n', Inv hh lh keys ip servIp n' a' := by
  cases i with
  | capture =>
    cases hframes : (a.2 .capture).frames with
    | nil =>
      have hnext : next hh lh ip servIp .capture (a.2 .capture) = none := by
        simp only [next, nextCapture, hframes]
      simp [Mutex.atomicStep, hnext] at hstep
    | cons p frames =>
      obtain ⟨f,heap⟩ := p
      cases hkey : insertedKey ip servIp (f.content heap) with
      | none =>
        rw [atomicStep_own _ (next_skip hframes hkey)] at hstep
        exact ⟨n,Option.some.inj hstep ▸ h.skip hframes hkey⟩
      | some key =>
        have hlight := histogramOk_of_insertAll h.state
        rw [atomicStep_locked _ (next_insert hframes hkey)] at hstep
        obtain ⟨p,hp,rfl⟩ := Option.map_eq_some_iff.mp hstep
        rw [runBody_insert _ _ _ h.memory hlight] at hp
        obtain ⟨t,ht,rfl⟩ := Option.map_eq_some_iff.mp hp
        refine ⟨n+1,h.insert hframes hkey (length_write (length_write h.memory _) _) ?_⟩
        rwa [read_insert h.memory hlight ht]
  | deliver =>
    cases hcopied : (a.2 .deliver).copied with
    | true =>
      rw [atomicStep_own _ (next_send hcopied)] at hstep
      exact ⟨n,Option.some.inj hstep ▸ h.send hcopied⟩
    | false =>
      rw [atomicStep_locked _ (next_copy hcopied)] at hstep
      obtain ⟨p,hp,rfl⟩ := Option.map_eq_some_iff.mp hstep
      rw [runBody_copy h.memory h.buf] at hp
      exact ⟨n,Option.some.inj hp ▸ h.copy hcopied⟩

theorem Inv.start {raw buf : List UInt8} (hraw : raw.length = sketchBytes hh lh)
    (hbuf : buf.length = sketchBytes hh lh) (ip servIp : List Char)
    (frames : List (Frame × (ℕ → UInt8))) :
    Inv hh lh (accepted ip servIp frames) ip servIp 0
      ((start hh lh raw buf frames).shared,(start hh lh raw buf frames).own) where
  memory := length_write hraw _
  le_length := Nat.zero_le _
  rest := rfl
  state := by
    have hclear : read hh lh (write raw (clear hh lh)) = clear hh lh :=
      read_write hraw (LightPart.HistogramOk.clear lh)
    exact congrArg some hclear.symm
  buf := hbuf
  sent := ⟨[],.nil,by simp,.nil⟩

/-- The sections of `deliverSketch` send nothing. -/
theorem sent_of_mem_body {r : Deliver}
    {body : List (List UInt8 × Deliver → Option (List UInt8 × Deliver))}
    (hnext : nextDeliver hh lh r = some (.locked body))
    {f : List UInt8 × Deliver → Option (List UInt8 × Deliver)} (hf : f ∈ body)
    {p q : List UInt8 × Deliver} (hq : f p = some q) : q.2.sent = p.2.sent := by
  rw [nextDeliver] at hnext
  split_ifs at hnext
  · cases hnext
  obtain rfl := Cmd.locked.inj (Option.some.inj hnext)
  rcases List.mem_append.mp hf with hcopy | hmark
  · obtain ⟨m,rfl⟩ := set_of_mem_memcpy _ _ hcopy hq
    rfl
  · obtain rfl := List.mem_singleton.mp hmark
    obtain rfl := Option.some.inj hq
    rfl

/-- Whatever the order in which the statements of the two threads are executed, the buffers passed
to `send` are the sketches of growing beginnings of the accepted packets. -/
theorem sent_snapshots (raw buf : List UInt8) (ip servIp : List Char)
    (frames : List (Frame × (ℕ → UInt8))) (acts : List (Action Thread)) (s : State (List UInt8) Own)
    (hraw : raw.length = sketchBytes hh lh) (hbuf : buf.length = sketchBytes hh lh)
    (hrun : Runs.run (step (next hh lh ip servIp)) (start hh lh raw buf frames) acts = some s) :
    Snapshots hh lh (accepted ip servIp frames) (accepted ip servIp frames).length
      (s.own .deliver).sent := by
  obtain ⟨a,⟨n,ha⟩,hsim⟩ := exists_sim (next hh lh ip servIp)
    (fun a => ∃ n, Inv hh lh (accepted ip servIp frames) ip servIp n a)
    ⟨0,Inv.start hraw hbuf ip servIp frames⟩ (fun _ _ _ ⟨_,ha⟩ hstep => ha.atomicStep hstep)
    acts s hrun
  have hsent : (a.2 .deliver).sent = (s.own .deliver).sent :=
    hsim.observe _ .deliver Deliver.sent fun _ _ hnext _ hf _ _ hq => sent_of_mem_body hnext hf hq
  rw [← hsent]
  exact (ha.sent.mono ha.le_length).of_append

section Rounds

variable (ip servIp : List Char) {m : List UInt8} (own : ∀ i, Own i)

theorem atomicStep_insert {f : Frame} {heap : ℕ → UInt8} {frames : List (Frame × (ℕ → UInt8))}
    {key : Key} {t : ElasticSketch hh lh} (hm : m.length = sketchBytes hh lh)
    (hlight : (read hh lh m).lightPart.HistogramOk)
    (hframes : (own .capture).frames = (f,heap) :: frames)
    (hkey : insertedKey ip servIp (f.content heap) = some key)
    (ht : (read hh lh m).insert key 1 = some t) :
    atomicStep (next hh lh ip servIp) (m,own) .capture =
      some (write (write m ⟨t.heavyPart,(read hh lh m).lightPart⟩) t,
        Function.update own .capture ⟨frames,none⟩) := by
  rw [atomicStep_locked _ (next_insert hframes hkey), runBody_insert _ _ _ hm hlight, ht]
  rfl

theorem atomicStep_send {image : List UInt8} {sent : List (List UInt8)}
    (hdeliver : own .deliver = ⟨image,true,sent⟩) :
    Mutex.atomicStep (next hh lh ip servIp) (m,own) .deliver =
      some (m,Function.update own .deliver ⟨image,false,sent ++ [image]⟩) := by
  have hcopied : (own .deliver).copied = true := by rw [hdeliver]
  refine (atomicStep_own _ (next_send hcopied)).trans ?_
  change some (m,Function.update own .deliver (Deliver.mk (own .deliver).buf false
    ((own .deliver).sent ++ [(own .deliver).buf]))) = _
  rw [hdeliver]

/-- A round of the loop of `deliverSketch`. -/
theorem run_round (hm : m.length = sketchBytes hh lh) (hcopied : (own .deliver).copied = false)
    (hbuf : (own .deliver).buf.length = sketchBytes hh lh) :
    Runs.run (Mutex.atomicStep (next hh lh ip servIp)) (m,own) [.deliver,.deliver] =
      some (m,Function.update own .deliver ⟨m,false,(own .deliver).sent ++ [m]⟩) := by
  have hcopy : Mutex.atomicStep (next hh lh ip servIp) (m,own) .deliver =
      some (m,Function.update own .deliver ⟨m,true,(own .deliver).sent⟩) := by
    rw [atomicStep_locked _ (next_copy hcopied), runBody_copy hm hbuf]
    rfl
  have hsend : Mutex.atomicStep (next hh lh ip servIp)
      (m,Function.update own .deliver ⟨m,true,(own .deliver).sent⟩) .deliver =
        some (m,Function.update own .deliver ⟨m,false,(own .deliver).sent ++ [m]⟩) := by
    rw [atomicStep_send ip servIp _ (Function.update_self ..), Function.update_idem]
  rw [Runs.run_cons, hcopy, Option.bind_some, Runs.run_cons, hsend]
  rfl

/-- A packet in front of a round: the copy has it. -/
theorem run_insert_round {f : Frame} {heap : ℕ → UInt8} {frames : List (Frame × (ℕ → UInt8))}
    {key : Key} {t : ElasticSketch hh lh} (hm : m.length = sketchBytes hh lh)
    (hlight : (read hh lh m).lightPart.HistogramOk) (hcopied : (own .deliver).copied = false)
    (hbuf : (own .deliver).buf.length = sketchBytes hh lh)
    (hframes : (own .capture).frames = (f,heap) :: frames)
    (hkey : insertedKey ip servIp (f.content heap) = some key)
    (ht : (read hh lh m).insert key 1 = some t) :
    ∃ m' own', Runs.run (Mutex.atomicStep (next hh lh ip servIp)) (m,own)
        (.capture :: [.deliver,.deliver]) = some (m',own') ∧
      read hh lh m' = t ∧ (own' .deliver).sent = (own .deliver).sent ++ [m'] := by
  have hinsert := atomicStep_insert ip servIp own hm hlight hframes hkey ht
  set m' := write (write m ⟨t.heavyPart,(read hh lh m).lightPart⟩) t with hm'
  have hlength : m'.length = sketchBytes hh lh := length_write (length_write hm _) _
  set own₁ := Function.update own .capture ⟨frames,none⟩ with hown₁
  have hdeliver : own₁ .deliver = own .deliver := Function.update_of_ne (by decide) ..
  have hround := run_round ip servIp own₁ hlength (hdeliver ▸ hcopied) (hdeliver ▸ hbuf)
  refine ⟨m',Function.update own₁ .deliver ⟨m',false,(own₁ .deliver).sent ++ [m']⟩,?_,
    read_insert hm hlight ht,?_⟩
  · rw [Runs.run_cons, hinsert, Option.bind_some, hround]
  · rw [Function.update_self, hdeliver]

/-- The capture drops a packet while the sketch is copied, and inserts the next one between two
rounds. -/
theorem exists_two_copies {raw buf : List UInt8} {f₀ f : Frame} {heap₀ heap : ℕ → UInt8} {key : Key}
    (frames : List (Frame × (ℕ → UInt8))) (hraw : raw.length = sketchBytes hh lh)
    (hbuf : buf.length = sketchBytes hh lh)
    (hdrop : insertedKey ip servIp (f₀.content heap₀) = none)
    (hkey : insertedKey ip servIp (f.content heap) = some key) :
    ∃ acts s, [.step .deliver,.proceed,.step .capture] <+: acts ∧
      Runs.run (step (next hh lh ip servIp))
        (start hh lh raw buf ((f₀,heap₀) :: (f,heap) :: frames)) acts = some s ∧
      (s.own .deliver).sent.length = 2 := by
  set m := write raw (clear hh lh) with hm
  set own := (start hh lh raw buf ((f₀,heap₀) :: (f,heap) :: frames)).own with hown
  have hlength : m.length = sketchBytes hh lh := length_write hraw _
  have hread : read hh lh m = clear hh lh := read_write hraw (LightPart.HistogramOk.clear lh)
  have hlight : (read hh lh m).lightPart.HistogramOk := by
    rw [hread]
    exact LightPart.HistogramOk.clear lh
  obtain ⟨t,ht,-⟩ := (RunOk.clear hh lh).step key (by simp)
  rw [← hread] at ht
  obtain ⟨first,rest,hsplit⟩ := List.exists_cons_of_ne_nil
    (l := memcpy Prod.fst bufRegion (sketchBytes hh lh) ++ [markCopied]) (by simp)
  have hcopy := runBody_copy (d := own .deliver) hlength hbuf
  have hlocked : next hh lh ip servIp .deliver (own .deliver) =
      some (.locked (memcpy Prod.fst bufRegion (sketchBytes hh lh) ++ [markCopied])) := next_copy rfl
  rw [hsplit] at hcopy hlocked
  have hround := run_interrupted (next hh lh ip servIp) (a := (m,own)) (by decide)
    (next_skip rfl hdrop) hlocked hcopy
  set own₁ := Function.update (Function.update own .capture ⟨(f,heap) :: frames,none⟩) .deliver
    ⟨m,true,[]⟩ with hown₁
  have hsend : Mutex.atomicStep (next hh lh ip servIp) (m,own₁) .deliver =
      some (m,Function.update own₁ .deliver ⟨m,false,[m]⟩) :=
    atomicStep_send ip servIp own₁ (Function.update_self ..)
  set own₂ := Function.update own₁ .deliver ⟨m,false,[m]⟩ with hown₂
  have hdeliver₂ : own₂ .deliver = ⟨m,false,[m]⟩ := Function.update_self ..
  have hcapture₂ : own₂ .capture = ⟨(f,heap) :: frames,none⟩ := rfl
  obtain ⟨m',own',hinsert,-,hsent⟩ := run_insert_round ip servIp own₂ hlength hlight
    (by rw [hdeliver₂]) (by rw [hdeliver₂]; exact hlength) (by rw [hcapture₂]) hkey ht
  have hatomic : Runs.run (Mutex.atomicStep (next hh lh ip servIp)) (m,own₁)
      (.deliver :: .capture :: [.deliver,.deliver]) = some (m',own') := by
    rw [Runs.run_cons, hsend, Option.bind_some, hinsert]
  obtain ⟨acts,hacts⟩ := exists_run_of_atomic _ _ hatomic
  refine ⟨[.step .deliver,.proceed,.step .capture] ++
    List.replicate (rest.length + 1) .proceed ++ acts,⟨m',own',none⟩,?_,?_,?_⟩
  · rw [List.append_assoc]
    exact List.prefix_append _ _
  · rw [Runs.run_append]
    exact (congrArg (Option.bind · _) hround).trans hacts
  · rw [hsent, hdeliver₂]
    rfl

end Rounds

/-- A TCP packet from 10.0.0.1:4000 to 192.168.1.2:80. -/
def tcpFrame : Frame where
  bytes := [0,0,0,0,0,0, 0,0,0,0,0,0, 8,0, 0x45,0,0,40, 0,0,0,0, 64,6,0,0, 10,0,0,1, 192,168,1,2,
    15,160,0,80]
  caplen_le := by decide

/-- An ICMP packet on the same way. -/
def icmpFrame : Frame where
  bytes := [0,0,0,0,0,0, 0,0,0,0,0,0, 8,0, 0x45,0,0,28, 0,0,0,0, 64,1,0,0, 10,0,0,1, 192,168,1,2,
    8,0,0,0]
  caplen_le := by decide

theorem sent_snapshots_one_packet :
    let h : Hashing := ⟨1,by decide,by decide,fun _ => 0⟩
    let ip := dotted ![192,168,1,2]
    let servIp := dotted ![192,168,1,10]
    let raw := List.replicate (sketchBytes h h) 0
    let frames := [(icmpFrame,fun _ => 0),(tcpFrame,fun _ => 0)]
    ∃ acts s, [.step .deliver,.proceed,.step .capture] <+: acts ∧
      Runs.run (step (next h h ip servIp)) (start h h raw raw frames) acts = some s ∧
      (s.own .deliver).sent.length = 2 ∧
      Snapshots h h (accepted ip servIp frames) (accepted ip servIp frames).length
        (s.own .deliver).sent := by
  intro h ip servIp raw frames
  have hraw : raw.length = sketchBytes h h := List.length_replicate
  have hdrop : insertedKey ip servIp (icmpFrame.content fun _ => 0) = none := by decide +kernel
  have hkey : insertedKey ip servIp (tcpFrame.content fun _ => 0) = some (quintet tcpFrame.byte) := by
    decide +kernel
  obtain ⟨acts,s,hbegin,hacts,hsent⟩ := exists_two_copies ip servIp [] hraw hraw hdrop hkey
  exact ⟨acts,s,hbegin,hacts,hsent,
    sent_snapshots raw raw ip servIp frames acts s hraw hraw hacts⟩

end Device
end SketchMonitor
