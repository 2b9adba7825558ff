import SketchMonitor.DeviceThreads

/-!
# Packets reach the server

Nothing stops the threads of a device: no statement under the mutex is without a result, and from
whatever state an interleaving has reached, the packets still to come can be inserted and a copy
of the sketch of all of them sent.
-/

namespace SketchMonitor
namespace Device

open ElasticSketch Mutex

variable {hh lh : Hashing} {keys : List Key} {ip servIp : List Char} {n : ℕ}
  {a : List UInt8 × ∀ i, Own i}

theorem runOk_of_insertAll {s : ElasticSketch hh lh} (h : insertAll hh lh keys = some s)
    (hlen : keys.length < 2^31) : RunOk keys s := by
  obtain ⟨t,ht,hok,-⟩ := insertAll_rule (fun _ => True) (fun _ (_ : ElasticSketch hh lh) => True)
    (fun _ _ _ => trivial) trivial (fun _ _ _ _ _ _ _ _ _ => trivial) keys hlen trivial
  rw [h] at ht
  exact Option.some.inj ht ▸ hok

/-- The next packet can be handled. -/
theorem Inv.capture_succeeds (h : Inv hh lh keys ip servIp n a) (hlen : keys.length < 2^31)
    {p : Frame × (ℕ → UInt8)} {frames : List (Frame × (ℕ → UInt8))}
    (hframes : (a.2 .capture).frames = p :: frames) :
    ∃ b, Mutex.atomicStep (next hh lh ip servIp) a .capture = some b ∧
      (b.2 .capture).frames = frames := by
  obtain ⟨f,heap⟩ := p
  cases hkey : insertedKey ip servIp (f.content heap) with
  | none => exact ⟨_,atomicStep_own _ (next_skip hframes hkey),rfl⟩
  | some key =>
    have hrest := h.rest
    rw [hframes, accepted_cons, hkey] at hrest
    have hshort : (keys.take n ++ [key]).length < 2^31 := by
      have hdrop := congrArg List.length hrest
      simp only [List.length_drop, List.length_append, Option.toList_some, List.length_singleton] at hdrop
      rw [List.length_append, List.length_take, List.length_singleton]
      omega
    have htake : (keys.take n).length < 2^31 := (List.length_take_le' _ _).trans_lt hlen
    obtain ⟨t,ht,-⟩ := (runOk_of_insertAll h.state htake).step key hshort
    exact ⟨_,atomicStep_insert ip servIp a.2 h.memory (histogramOk_of_insertAll h.state) hframes hkey ht,
      rfl⟩

theorem Inv.deliver_succeeds (h : Inv hh lh keys ip servIp n a) :
    ∃ b, Mutex.atomicStep (next hh lh ip servIp) a .deliver = some b := by
  cases hcopied : (a.2 .deliver).copied with
  | true => exact ⟨_,atomicStep_own _ (next_send hcopied)⟩
  | false =>
    have hbody := runBody_copy h.memory h.buf
    rw [atomicStep_locked _ (next_copy hcopied), hbody]
    exact ⟨_,rfl⟩

/-- All packets to come can be inserted. -/
theorem Inv.exists_captured (h : Inv hh lh keys ip servIp n a) (hlen : keys.length < 2^31) :
    ∃ is b, Runs.run (Mutex.atomicStep (next hh lh ip servIp)) a is = some b ∧
      (b.2 .capture).frames = [] ∧ Inv hh lh keys ip servIp keys.length b := by
  induction hframes : (a.2 .capture).frames generalizing n a with
  | nil =>
    have hdrop := h.rest
    rw [hframes, accepted, List.filterMap_nil, List.drop_eq_nil_iff] at hdrop
    obtain rfl := le_antisymm h.le_length hdrop
    exact ⟨[],a,rfl,hframes,h⟩
  | cons p frames ih =>
    obtain ⟨b,hb,hbframes⟩ := h.capture_succeeds hlen hframes
    obtain ⟨n',hinv⟩ := h.atomicStep hb
    obtain ⟨is,b',hrun,hdone⟩ := ih hinv hbframes
    exact ⟨.capture :: is,b',by rw [Runs.run_cons, hb, Option.bind_some, hrun],hdone⟩

/-- A copy can be sent. -/
theorem Inv.exists_sent (h : Inv hh lh keys ip servIp n a) :
    ∃ is b, Runs.run (Mutex.atomicStep (next hh lh ip servIp)) a is = some b ∧
      b.2 .capture = a.2 .capture ∧ (b.2 .deliver).sent.getLast? = some a.1 := by
  have hidle {a : List UInt8 × ∀ i, Own i} (h : Inv hh lh keys ip servIp n a)
      (hcopied : (a.2 .deliver).copied = false) :
      ∃ b, Runs.run (Mutex.atomicStep (next hh lh ip servIp)) a [.deliver,.deliver] = some b ∧
        b.2 .capture = a.2 .capture ∧ (b.2 .deliver).sent.getLast? = some a.1 :=
    ⟨_,run_round ip servIp a.2 h.memory hcopied h.buf,rfl,List.getLast?_concat⟩
  cases hcopied : (a.2 .deliver).copied with
  | false => exact ⟨_,hidle h hcopied⟩
  | true =>
    obtain ⟨b,hrun,hb⟩ := hidle (h.send hcopied) rfl
    refine ⟨[.deliver,.deliver,.deliver],b,?_,hb⟩
    rw [Runs.run_cons, atomicStep_own _ (next_send hcopied)]
    exact hrun

/-- The section that is being executed succeeds. -/
theorem Inv.section_succeeds (h : Inv hh lh keys ip servIp n a) (hlen : keys.length < 2^31)
    {s : State (List UInt8) Own} (hsim : Sim (next hh lh ip servIp) a s) {i : Thread}
    {rest : List (List UInt8 × Own i → Option (List UInt8 × Own i))}
    (hholder : s.holder = some ⟨i,rest⟩) :
    ∃ b, Mutex.atomicStep (next hh lh ip servIp) a i = some b := by
  cases i with
  | deliver => exact h.deliver_succeeds
  | capture =>
    obtain ⟨⟨before,hnext,-⟩,-⟩ := (sim_some _ hholder).mp hsim
    cases hframes : (a.2 .capture).frames with
    | nil => simp [next, nextCapture, hframes] at hnext
    | cons p frames =>
      obtain ⟨b,hb,-⟩ := h.capture_succeeds hlen hframes
      exact ⟨b,hb⟩

/-- The section that is being executed can be completed. -/
theorem Inv.exists_idle (h : Inv hh lh keys ip servIp n a) (hlen : keys.length < 2^31)
    {s : State (List UInt8) Own} (hsim : Sim (next hh lh ip servIp) a s) :
    ∃ acts b n', Runs.run (step (next hh lh ip servIp)) s acts = some ⟨b.1,b.2,none⟩ ∧
      Inv hh lh keys ip servIp n' b := by
  obtain ⟨shared,own,holder⟩ := s
  cases holder with
  | none =>
    obtain rfl := (sim_none _ rfl).mp hsim
    exact ⟨[],_,n,rfl,h⟩
  | some holder =>
    obtain ⟨b,hb⟩ := h.section_succeeds hlen hsim rfl
    obtain ⟨acts,hrun⟩ := hsim.finish _ rfl hb
    obtain ⟨n',hinv⟩ := h.atomicStep hb
    exact ⟨acts,b,n',hrun,hinv⟩

/-- From whatever state an interleaving has reached, the holder of the mutex can go on, and some
continuation ends with a copy of the sketch of all packets passed to `send`. -/
theorem exists_delivery (raw buf : List UInt8) (ip servIp : List Char)
    (frames : List (Frame × (ℕ → UInt8))) (acts : List (Action Thread)) (s : State (List UInt8) Own)
    (hraw : raw.length = sketchBytes hh lh) (hbuf : buf.length = sketchBytes hh lh)
    (hlen : (accepted ip servIp frames).length < 2^31)
    (hrun : Runs.run (step (next hh lh ip servIp)) (start hh lh raw buf frames) acts = some s) :
    (s.holder ≠ none → ∃ t, step (next hh lh ip servIp) s .proceed = some t) ∧
      ∃ acts' t m, Runs.run (step (next hh lh ip servIp)) s acts' = some t ∧
        (t.own .capture).frames = [] ∧ (t.own .deliver).sent.getLast? = some m ∧
        insertAll hh lh (accepted ip servIp frames) = some (read hh lh m) := by
  obtain ⟨a,⟨n,ha⟩,hsim⟩ := exists_sim (next hh lh ip servIp)
    (fun a => ∃ n, Inv hh lh (accepted ip servIp frames) ip servIp n a)
    ⟨0,Inv.start hraw hbuf ip servIp frames⟩ (fun _ _ _ ⟨_,ha⟩ hstep => ha.atomicStep hstep)
    acts s hrun
  constructor
  · intro hheld
    obtain ⟨⟨i,rest⟩,hholder⟩ := Option.ne_none_iff_exists'.mp hheld
    obtain ⟨b,hb⟩ := ha.section_succeeds hlen hsim hholder
    exact hsim.proceed _ hholder hb
  · obtain ⟨acts₁,b₁,n₁,hrun₁,hinv₁⟩ := ha.exists_idle hlen hsim
    obtain ⟨is₂,b₂,hatomic₂,hframes,hinv₂⟩ := hinv₁.exists_captured hlen
    obtain ⟨is₃,b₃,hatomic₃,hcapture,hsent⟩ := hinv₂.exists_sent
    obtain ⟨acts₂,hrun₂⟩ := exists_run_of_atomic _ _ hatomic₂
    obtain ⟨acts₃,hrun₃⟩ := exists_run_of_atomic _ _ hatomic₃
    have hstate := hinv₂.state
    rw [List.take_length] at hstate
    refine ⟨acts₁ ++ acts₂ ++ acts₃,⟨b₃.1,b₃.2,none⟩,b₂.1,?_,
      (congrArg Capture.frames hcapture).trans hframes,hsent,hstate⟩
    rw [Runs.run_append, Runs.run_append, hrun₁, Option.bind_some, hrun₂, Option.bind_some, hrun₃]

/-- Between the two writes of an insertion. -/
theorem exists_half_inserted {raw buf : List UInt8} {f : Frame} {heap : ℕ → UInt8} {key : Key}
    (frames : List (Frame × (ℕ → UInt8))) (hkey : insertedKey ip servIp (f.content heap) = some key) :
    ∃ s, Runs.run (step (next hh lh ip servIp)) (start hh lh raw buf ((f,heap) :: frames))
      [.step .capture,.proceed] = some s ∧ s.holder ≠ none := by
  have hlock := step_locked (next hh lh ip servIp) (s := start hh lh raw buf ((f,heap) :: frames)) rfl
    (next_insert rfl hkey)
  obtain ⟨t,hwrite,hholder⟩ : ∃ t, step (next hh lh ip servIp)
      { start hh lh raw buf ((f,heap) :: frames) with
        holder := some ⟨.capture,[heavyInsert hh lh key,lightInsert hh lh key frames]⟩ } .proceed =
          some t ∧ t.holder ≠ none :=
    ⟨_,step_proceed _ rfl rfl,Option.some_ne_none _⟩
  rw [Runs.run_cons, hlock, Option.bind_some, Runs.run_cons, hwrite]
  exact ⟨t,rfl,hholder⟩

theorem exists_delivery_half_inserted :
    let h : Hashing := ⟨1,by decide,by decide,fun _ => 0⟩
    let ip := dotted ![192,168,1,2]
    let servIp := dotted ![192,168,1,10]
    let raw := List.replicate (sketchBytes h h) 0
    let frames := [(tcpFrame,fun _ => 0)]
    ∃ s, Runs.run (step (next h h ip servIp)) (start h h raw raw frames) [.step .capture,.proceed] =
        some s ∧ (∃ t, step (next h h ip servIp) s .proceed = some t) ∧
      ∃ acts' t m, Runs.run (step (next h h ip servIp)) s acts' = some t ∧
        (t.own .capture).frames = [] ∧ (t.own .deliver).sent.getLast? = some m ∧
        insertAll h h (accepted ip servIp frames) = some (read h h m) := by
  intro h ip servIp raw frames
  have hraw : raw.length = sketchBytes h h := List.length_replicate
  have hkey : insertedKey ip servIp (tcpFrame.content fun _ => 0) = some (quintet tcpFrame.byte) := by
    decide +kernel
  have hlen : (accepted ip servIp frames).length < 2^31 := by
    rw [accepted_cons, hkey]
    simp [accepted]
  obtain ⟨s,hrun,hholder⟩ := exists_half_inserted [] hkey
  obtain ⟨hproceed,hdelivery⟩ := exists_delivery raw raw ip servIp frames _ s hraw hraw hlen hrun
  exact ⟨s,hrun,hproceed hholder,hdelivery⟩

end Device
end SketchMonitor
