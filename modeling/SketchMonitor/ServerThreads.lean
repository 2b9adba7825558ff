import SketchMonitor.DeviceThreads
import SketchMonitor.ReceiveLoop

/-!
# The threads of the server

The thread of a connection collects a sketch in its own buffer and copies it to `ptr`, and the
threads of a report copy the memory at `ptr` and work on the copy. They lock `mtx` for the copies
only, which go byte by byte. As long as the results of `recv` are the bytes sent behind a whole ID
and stay inside the buffer, a report is made of whole sketches, each of one client, over any
interleaving, and together with the device this is the sketch of its first packets.
-/

namespace SketchMonitor
namespace ServerThreads

open Framing Loops MemoryCopy Mutex

variable {κ ν : Type} [DecidableEq κ] [DecidableEq ν]

/-- The threads of the connections, and those that reports have for a connection. -/
inductive Thread (κ ν : Type)
  | receive (k : κ)
  | process (j : ν)
  deriving DecidableEq

/-- The sketch of `process_data`, whether `ptr` has been copied to it, and the sketch that the
report is made of, which has its own pointers again. -/
structure Process where
  elastic : List UInt8
  copied : Bool
  used : Option (List UInt8)

abbrev Own (κ ν : Type) : Thread κ ν → Type
  | .receive _ => Loops
  | .process _ => Process

/-- The memory at `ptr`, as the thread of the connection writes it. -/
def ptrRegion (k : κ) : Region ((κ → List UInt8) × Loops) UInt8 where
  get p := p.1 k
  set p m := (Function.update p.1 k m,p.2)
  get_set _ _ := Function.update_self ..
  set_get _ := Prod.ext (Function.update_eq_self ..) rfl
  set_set _ _ _ := Prod.ext (Function.update_idem ..) rfl

def elasticRegion : Region ((κ → List UInt8) × Process) UInt8 where
  get p := p.2.elastic
  set p m := (p.1,{ p.2 with elastic := m })
  get_set _ _ := rfl
  set_get _ := rfl
  set_set _ _ _ := rfl

def markInstalled (p : (κ → List UInt8) × Loops) : Option ((κ → List UInt8) × Loops) :=
  some (p.1,{ p.2 with pc := .outer, installed := p.2.installed ++ [p.2.buf] })

def markCopied (p : (κ → List UInt8) × Process) : Option ((κ → List UInt8) × Process) :=
  some (p.1,{ p.2 with copied := true })

/-- `recieveSketch` against the results of its `recv`. -/
def nextReceive (k : κ) (results : ℕ → List UInt8) (c : Loops) :
    Option (Cmd (κ → List UInt8) Loops) :=
  match c.pc with
  | .install =>
    if c.len = sketchSize then
      some (.locked (memcpy (fun p => p.2.buf) (ptrRegion k) sketchSize ++ [markInstalled]))
    else some (.own { c with pc := .outer })
  | _ => (Loops.step (fun i => some (results i)) c).toOption.map .own

/-- `process_data` up to the point where its sketch has its own pointers again. -/
def nextProcess (k : κ) (p : Process) : Option (Cmd (κ → List UInt8) Process) :=
  if p.used.isSome then none
  else if p.copied then some (.own { p with used := some p.elastic })
  else some (.locked (memcpy (fun q => q.1 k) elasticRegion sketchSize ++ [markCopied]))

def next (target : ν → κ) (results : κ → ℕ → List UInt8) :
    ∀ i : Thread κ ν, Own κ ν i → Option (Cmd (κ → List UInt8) (Own κ ν i))
  | .receive k => nextReceive k (results k)
  | .process j => nextProcess (target j)

/-- The memory that `malloc` and `new` return holds anything. -/
def start (ptr : κ → List UInt8) (elastic : ν → List UInt8) :
    State (κ → List UInt8) (Own κ ν) where
  shared := ptr
  own
    | .receive _ => Loops.start
    | .process j => ⟨elastic j,false,none⟩
  holder := none

theorem installed_of_step {results : ℕ → Option (List UInt8)} {c d : Loops} (hpc : c.pc ≠ .install)
    (h : Loops.step results c = .ok d) : d.installed = c.installed := by
  obtain ⟨pc,buf,len,calls,installed⟩ := c
  cases pc with
  | recvId =>
    simp only [Loops.step] at h
    split at h
    · cases h
    · rw [← Except.ok.inj h]
  | recv =>
    simp only [Loops.step] at h
    split at h
    · cases h
    · split_ifs at h
      rw [← Except.ok.inj h]
  | install => exact absurd rfl hpc
  | outer | inner | close => rw [← Except.ok.inj h]

theorem nextReceive_of_ne {k : κ} {results : ℕ → List UInt8} {c : Loops} (hpc : c.pc ≠ .install) :
    nextReceive k results c = (Loops.step (fun i => some (results i)) c).toOption.map .own := by
  obtain ⟨pc,buf,len,calls,installed⟩ := c
  cases pc with
  | install => exact absurd rfl hpc
  | recvId | outer | inner | recv | close => rfl

/-- What the thread of a connection does: a step of `recieveSketch`, or the copy of a sketch. -/
theorem nextReceive_cases {k : κ} {results : ℕ → List UInt8} {c : Loops}
    {x : Cmd (κ → List UInt8) Loops} (h : nextReceive k results c = some x) :
    (∃ d, x = .own d ∧ d.installed = c.installed ∧
      Loops.step (fun i => some (results i)) c = .ok d) ∨
    x = .locked (memcpy (fun p => p.2.buf) (ptrRegion k) sketchSize ++ [markInstalled]) ∧
      c.pc = .install ∧ c.len = sketchSize ∧ Loops.step (fun i => some (results i)) c =
        .ok { c with pc := .outer, installed := c.installed ++ [c.buf] } := by
  by_cases hpc : c.pc = .install
  · simp only [nextReceive, hpc] at h
    split_ifs at h with hlen
    · exact .inr ⟨(Option.some.inj h).symm,hpc,hlen,by simp only [Loops.step, hpc, if_pos hlen]⟩
    · exact .inl ⟨_,(Option.some.inj h).symm,rfl,by simp only [Loops.step, hpc, if_neg hlen]⟩
  · rw [nextReceive_of_ne hpc] at h
    obtain ⟨d,hd,rfl⟩ := Option.map_eq_some_iff.mp h
    cases hok : Loops.step (fun i => some (results i)) c with
    | error e => simp [hok, Except.toOption] at hd
    | ok e =>
      rw [hok] at hd
      obtain rfl : e = d := Option.some.inj hd
      exact .inl ⟨e,rfl,installed_of_step hpc hok,rfl⟩

omit [DecidableEq κ] in
theorem nextProcess_cases {k : κ} {p : Process} {x : Cmd (κ → List UInt8) Process}
    (h : nextProcess k p = some x) :
    (p.copied = true ∧ x = .own { p with used := some p.elastic }) ∨
      x = .locked (memcpy (fun q => q.1 k) elasticRegion sketchSize ++ [markCopied]) := by
  rw [nextProcess] at h
  split_ifs at h with hused hcopied
  · exact .inl ⟨hcopied,(Option.some.inj h).symm⟩
  · exact .inr (Option.some.inj h).symm

theorem runBody_install {ptr : κ → List UInt8} {k : κ} {c : Loops}
    (hptr : (ptr k).length = sketchSize) (hbuf : c.buf.length = sketchSize) :
    runBody (ptr,c) (memcpy (fun p => p.2.buf) (ptrRegion k) sketchSize ++ [markInstalled]) =
      some (Function.update ptr k c.buf,
        { c with pc := .outer, installed := c.installed ++ [c.buf] }) := by
  have hcopy := run_memcpy (fun p => p.2.buf) (ptrRegion k) (fun _ _ => rfl) (t := (ptr,c)) hbuf hptr
  rw [runBody, Runs.run_concat, hcopy]
  rfl

omit [DecidableEq κ] in
theorem runBody_copy {ptr : κ → List UInt8} {k : κ} {p : Process} (hptr : (ptr k).length = sketchSize)
    (helastic : p.elastic.length = sketchSize) :
    runBody (ptr,p) (memcpy (fun q => q.1 k) elasticRegion sketchSize ++ [markCopied]) =
      some (ptr,{ p with elastic := ptr k, copied := true }) := by
  have hcopy := run_memcpy (fun q => q.1 k) elasticRegion (fun _ _ => rfl) (t := (ptr,p)) hptr helastic
  rw [runBody, Runs.run_concat, hcopy]
  rfl

/-- The sketches of a thread of a report are among those that `ptr` has held. -/
structure Process.Ok (held : List (List UInt8)) (p : Process) : Prop where
  length : p.elastic.length = sketchSize
  copied : p.copied = true → p.elastic ∈ held
  used : ∀ m, p.used = some m → m ∈ held

theorem Process.Ok.mono {held held' : List (List UInt8)} {p : Process} (h : p.Ok held)
    (hheld : held ⊆ held') : p.Ok held' :=
  ⟨h.length,fun hcopied => hheld (h.copied hcopied),fun m hm => hheld (h.used m hm)⟩

/-- What `ptr` has held: the memory that `malloc` returned and the sketches copied to it. -/
def held (ptr₀ : κ → List UInt8) (own : ∀ i : Thread κ ν, Own κ ν i) (k : κ) : List (List UInt8) :=
  ptr₀ k :: (own (.receive k)).installed

/-- What the atomic machine keeps. -/
structure Inv (ptr₀ : κ → List UInt8) (target : ν → κ) (results : κ → ℕ → List UInt8)
    (ptr : κ → List UInt8) (own : ∀ i : Thread κ ν, Own κ ν i) : Prop where
  kept : ∀ k, ∃ n, Kept (results k) n (own (.receive k))
  length : ∀ k, (ptr k).length = sketchSize
  mem_held : ∀ k, ptr k ∈ held ptr₀ own k
  process : ∀ j, (own (.process j)).Ok (held ptr₀ own (target j))

variable {ptr₀ ptr : κ → List UInt8} {target : ν → κ} {results : κ → ℕ → List UInt8}
  {own : ∀ i : Thread κ ν, Own κ ν i}

theorem held_receive (own : ∀ i : Thread κ ν, Own κ ν i) (k : κ) (d : Loops) :
    held ptr₀ (Function.update own (.receive k) d) =
      Function.update (held ptr₀ own) k (ptr₀ k :: d.installed) := by
  funext k'
  by_cases hk : k' = k
  · subst hk
    simp only [held, Function.update_self]
  · have hne : Thread.receive k' ≠ (.receive k : Thread κ ν) := fun h => hk (Thread.receive.inj h)
    simp only [held, Function.update_of_ne hk, Function.update_of_ne hne]

/-- A step of the thread of a connection. -/
theorem Inv.receive (h : Inv ptr₀ target results ptr own) {k : κ} {m : List UInt8} {d : Loops}
    (hkept : ∃ n, Kept (results k) n d) (hlength : m.length = sketchSize)
    (hm : m ∈ ptr₀ k :: d.installed) (hgrow : (own (.receive k)).installed ⊆ d.installed) :
    Inv ptr₀ target results (Function.update ptr k m) (Function.update own (.receive k) d) := by
  refine ⟨fun k' => ?_,fun k' => ?_,fun k' => ?_,fun j => ?_⟩
  · by_cases hk : k' = k
    · subst hk
      rwa [Function.update_self]
    · rw [Function.update_of_ne fun h => hk (Thread.receive.inj h)]
      exact h.kept k'
  · by_cases hk : k' = k
    · subst hk
      rwa [Function.update_self]
    · rw [Function.update_of_ne hk]
      exact h.length k'
  · rw [held_receive]
    by_cases hk : k' = k
    · subst hk
      rwa [Function.update_self, Function.update_self]
    · rw [Function.update_of_ne hk, Function.update_of_ne hk]
      exact h.mem_held k'
  · have hne : (.process j : Thread κ ν) ≠ .receive k := nofun
    rw [held_receive, Function.update_of_ne hne]
    refine (h.process j).mono ?_
    by_cases hk : target j = k
    · rw [hk, Function.update_self]
      exact List.cons_subset_cons _ hgrow
    · rw [Function.update_of_ne hk]
      exact List.Subset.refl _

/-- A step of a thread of a report. -/
theorem Inv.setProcess (h : Inv ptr₀ target results ptr own) {j : ν} {p : Process}
    (hp : p.Ok (held ptr₀ own (target j))) :
    Inv ptr₀ target results ptr (Function.update own (.process j) p) := by
  have hheld : held ptr₀ (Function.update own (.process j) p) = held ptr₀ own := rfl
  refine ⟨h.kept,h.length,h.mem_held,fun j' => ?_⟩
  rw [hheld]
  by_cases hj : j' = j
  · subst hj
    rwa [Function.update_self]
  · rw [Function.update_of_ne fun h => hj (Thread.process.inj h)]
    exact h.process j'

theorem buf_length_of_kept {results : ℕ → List UInt8} {n : ℕ} {c : Loops} (h : Kept results n c)
    (hpc : c.pc = .install) (hlen : c.len = sketchSize) : c.buf.length = sketchSize := by
  have hsplit := run_split (by decide : 0 < sketchSize) _ _ h.frames_eq
  refine hsplit.done_length c.buf ?_
  simp only [frames, hpc, if_pos hlen]
  exact List.mem_append_right _ (List.mem_singleton_self _)

theorem Inv.atomicStep {a' : (κ → List UInt8) × ∀ i : Thread κ ν, Own κ ν i} {i : Thread κ ν}
    (h : Inv ptr₀ target results ptr own)
    (hstep : Mutex.atomicStep (next target results) (ptr,own) i = some a') :
    Inv ptr₀ target results a'.1 a'.2 := by
  cases hnext : next target results i (own i) with
  | none => simp [Mutex.atomicStep, hnext] at hstep
  | some x =>
    cases i with
    | receive k =>
      obtain ⟨n,hkept⟩ := h.kept k
      obtain ⟨d,rfl,hinstalled,hok⟩ | ⟨rfl,hpc,hlen,hok⟩ := nextReceive_cases hnext
      · rw [atomicStep_own _ hnext] at hstep
        obtain rfl := Option.some.inj hstep
        have hown := h.receive (m := ptr k) ⟨n+1,hkept.step hok⟩ (h.length k)
          (hinstalled ▸ h.mem_held k) (hinstalled ▸ List.Subset.refl _)
        rwa [Function.update_eq_self] at hown
      · have hbuf := buf_length_of_kept hkept hpc hlen
        rw [atomicStep_locked _ hnext, runBody_install (h.length k) hbuf] at hstep
        obtain rfl := Option.some.inj hstep
        exact h.receive ⟨n+1,hkept.step hok⟩ hbuf (by simp) (List.subset_append_left _ _)
    | process j =>
      have hok := h.process j
      obtain ⟨hcopied,rfl⟩ | rfl := nextProcess_cases hnext
      · rw [atomicStep_own _ hnext] at hstep
        obtain rfl := Option.some.inj hstep
        exact h.setProcess ⟨hok.length,hok.copied,fun m hm => Option.some.inj hm ▸ hok.copied hcopied⟩
      · rw [atomicStep_locked _ hnext, runBody_copy (h.length _) hok.length] at hstep
        obtain rfl := Option.some.inj hstep
        exact h.setProcess ⟨h.length _,fun _ => h.mem_held _,hok.used⟩

omit [DecidableEq κ] [DecidableEq ν] in
theorem Inv.start {elastic : ν → List UInt8} (hptr : ∀ k, (ptr₀ k).length = sketchSize)
    (helastic : ∀ j, (elastic j).length = sketchSize) :
    Inv ptr₀ target results (start ptr₀ elastic).shared (start ptr₀ elastic).own where
  kept _ := ⟨0,kept_start⟩
  length := hptr
  mem_held _ := List.mem_cons_self
  process j := ⟨helastic j,nofun,nofun⟩

omit [DecidableEq κ] in
/-- The section of `process_data` leaves what is used alone. -/
theorem used_of_mem_body {k : κ} {r : Process}
    {body : List ((κ → List UInt8) × Process → Option ((κ → List UInt8) × Process))}
    (hnext : nextProcess k r = some (.locked body))
    {f : (κ → List UInt8) × Process → Option ((κ → List UInt8) × Process)} (hf : f ∈ body)
    {p q : (κ → List UInt8) × Process} (hq : f p = some q) : q.2.used = p.2.used := by
  obtain ⟨-,hown⟩ | hbody := nextProcess_cases hnext
  · cases hown
  rw [Cmd.locked.inj hbody, List.mem_append] at hf
  rcases hf with hcopy | hmark
  · obtain ⟨m,rfl⟩ := set_of_mem_memcpy _ _ hcopy hq
    rfl
  · obtain rfl := List.mem_singleton.mp hmark
    obtain rfl := Option.some.inj hq
    rfl

/-- Sketches that were received one after the other behind the id. -/
def Received (results : ℕ → List UInt8) (frames : List (List UInt8)) : Prop :=
  (∀ f ∈ frames, f.length = sketchSize) ∧ ∃ n, frames.flatten <+: (received results n).flatten

theorem received_of_kept {results : ℕ → List UInt8} {n : ℕ} {c : Loops} (h : Kept results n c) :
    Received results c.installed := by
  have hsplit := run_split (by decide : 0 < sketchSize) _ _ h.frames_eq
  have hdone : c.installed <+: c.frames.done := by
    unfold frames
    split <;> (try split_ifs) <;> simp
  obtain ⟨rest,hrest⟩ := hdone
  refine ⟨fun f hf => hsplit.done_length f (hrest ▸ List.mem_append_left rest hf),c.calls,?_⟩
  rw [← hsplit.stream_eq, ← hrest, List.flatten_append, List.append_assoc]
  exact List.prefix_append _ _

/-- A report is made of the memory that `malloc` returned or of one of the sketches received. -/
theorem used_received (ptr₀ : κ → List UInt8) (elastic : ν → List UInt8) (target : ν → κ)
    (results : κ → ℕ → List UInt8) (acts : List (Action (Thread κ ν)))
    (s : State (κ → List UInt8) (Own κ ν)) (hptr : ∀ k, (ptr₀ k).length = sketchSize)
    (helastic : ∀ j, (elastic j).length = sketchSize)
    (hrun : Runs.run (step (next target results)) (start ptr₀ elastic) acts = some s) (j : ν)
    (m : List UInt8) (hused : (s.own (.process j)).used = some m) :
    m = ptr₀ (target j) ∨ ∃ frames, Received (results (target j)) frames ∧ m ∈ frames := by
  obtain ⟨a,ha,hsim⟩ := exists_sim (next target results)
    (fun a => Inv ptr₀ target results a.1 a.2) (Inv.start hptr helastic)
    (fun _ _ _ ha hstep => ha.atomicStep hstep) acts s hrun
  have hobs : (a.2 (.process j)).used = (s.own (.process j)).used :=
    hsim.observe _ (.process j) Process.used fun _ _ hnext _ hf _ _ hq => used_of_mem_body hnext hf hq
  obtain ⟨n,hkept⟩ := ha.kept (target j)
  rcases List.mem_cons.mp ((ha.process j).used m (hobs.trans hused)) with rfl | hm
  · exact .inl rfl
  · exact .inr ⟨_,received_of_kept hkept,hm⟩

section Rounds

variable (target : ν → κ) (results : κ → ℕ → List UInt8) (ptr : κ → List UInt8)
  (own : ∀ i : Thread κ ν, Own κ ν i) (k : κ) {c d : Loops} {elastic : List UInt8}

theorem atomicStep_receive (hstep : Loops.step (fun i => some (results k i)) c = .ok d)
    (hpc : c.pc ≠ .install) :
    atomicStep (next target results) (ptr,Function.update own (.receive k) c) (.receive k) =
      some (ptr,Function.update own (.receive k) d) := by
  have hnext : next target results (.receive k) (Function.update own (.receive k) c (.receive k)) =
      some (.own d) := by
    rw [Function.update_self]
    exact (nextReceive_of_ne hpc).trans (by rw [hstep]; rfl)
  rw [atomicStep_own _ hnext]
  exact congrArg (fun o => some (ptr,o)) (Function.update_idem ..)

theorem atomicStep_install (hpc : c.pc = .install) (hlen : c.len = sketchSize)
    (hbuf : c.buf.length = sketchSize) (hptr : (ptr k).length = sketchSize) :
    atomicStep (next target results) (ptr,Function.update own (.receive k) c) (.receive k) =
      some (Function.update ptr k c.buf,Function.update own (.receive k)
        { c with pc := .outer, installed := c.installed ++ [c.buf] }) := by
  have hnext : next target results (.receive k) (Function.update own (.receive k) c (.receive k)) =
      some (.locked (memcpy (fun p => p.2.buf) (ptrRegion k) sketchSize ++ [markInstalled])) := by
    rw [Function.update_self]
    change nextReceive k (results k) c = _
    simp only [nextReceive, hpc, if_pos hlen]
  have hbody := runBody_install (c := c) hptr hbuf
  rw [atomicStep_locked _ hnext]
  simp only [Function.update_self, hbody, Option.map_some, Function.update_idem]

/-- A sketch that arrives in parts, none of which runs past its end, is copied to `ptr`. -/
theorem run_parts (parts installed : List (List UInt8)) (hparts : ∀ p ∈ parts, p ≠ [])
    {buf : List UInt8} {len calls : ℕ} (hbuf : buf.length = sketchSize)
    (hptr : (ptr k).length = sketchSize) (htotal : len + parts.flatten.length = sketchSize)
    (hresults : ∀ i (hi : i < parts.length), results k (calls + i) = parts[i]) :
    ∃ is c', Runs.run (atomicStep (next target results))
        (ptr,Function.update own (.receive k) ⟨.inner,buf,len,calls,installed⟩) is =
      some (Function.update ptr k (buf.take len ++ parts.flatten),
        Function.update own (.receive k) c') := by
  induction parts generalizing buf len calls with
  | nil =>
    obtain rfl : len = sketchSize := htotal
    have hloop : Loops.step (fun i => some (results k i)) ⟨.inner,buf,sketchSize,calls,installed⟩ =
        .ok ⟨.install,buf,sketchSize,calls,installed⟩ := by
      simp only [Loops.step, lt_irrefl, if_false]
    refine ⟨[.receive k,.receive k],⟨.outer,buf,sketchSize,calls,installed ++ [buf]⟩,?_⟩
    rw [Runs.run_cons, atomicStep_receive _ _ _ _ _ hloop (by simp), Option.bind_some, Runs.run_cons,
      atomicStep_install _ _ _ _ _ rfl rfl hbuf hptr, List.flatten_nil, List.append_nil,
      List.take_of_length_le hbuf.le]
    rfl
  | cons part parts ih =>
    obtain ⟨hpart,hparts⟩ := List.forall_mem_cons.mp hparts
    have hpos : 0 < part.length := List.length_pos_iff.mpr hpart
    rw [List.flatten_cons, List.length_append] at htotal
    have hlt : len < sketchSize := by omega
    have hfits : len + part.length ≤ sketchSize := by omega
    have hresult : results k calls = part := hresults 0 (Nat.succ_pos _)
    have hloop : Loops.step (fun i => some (results k i)) ⟨.inner,buf,len,calls,installed⟩ =
        .ok ⟨.recv,buf,len,calls,installed⟩ := by
      simp only [Loops.step, if_pos hlt]
    have hrecv : Loops.step (fun i => some (results k i)) ⟨.recv,buf,len,calls,installed⟩ =
        .ok ⟨.inner,buf.take len ++ part ++ buf.drop (len + part.length),len + part.length,calls + 1,
          installed⟩ := by
      simp only [Loops.step, hresult, if_neg hfits.not_gt]
    have hrest : len + part.length + parts.flatten.length = sketchSize := by omega
    obtain ⟨is,c',hrun⟩ := ih hparts (length_stored hbuf hfits) hrest fun i hi => by
      rw [add_assoc, add_comm 1 i]
      exact hresults (i+1) (Nat.succ_lt_succ hi)
    rw [take_stored (hlt.le.trans hbuf.ge)] at hrun
    refine ⟨.receive k :: .receive k :: is,c',?_⟩
    rw [Runs.run_cons, atomicStep_receive _ _ _ _ _ hloop (by simp), Option.bind_some, Runs.run_cons,
      atomicStep_receive _ _ _ _ _ hrecv (by simp), Option.bind_some, hrun, List.flatten_cons,
      List.append_assoc]

/-- A thread of a report on its own. -/
theorem run_report (j : ν) (hprocess : own (.process j) = ⟨elastic,false,none⟩)
    (hptr : (ptr (target j)).length = sketchSize) (helastic : elastic.length = sketchSize) :
    ∃ own', Runs.run (atomicStep (next target results)) (ptr,own) [.process j,.process j] =
      some (ptr,own') ∧ (own' (.process j)).used = some (ptr (target j)) := by
  have hcopy : atomicStep (next target results) (ptr,own) (.process j) =
      some (ptr,Function.update own (.process j) ⟨ptr (target j),true,none⟩) := by
    have hnext : next target results (.process j) (own (.process j)) =
        some (.locked (memcpy (fun q => q.1 (target j)) elasticRegion sketchSize ++ [markCopied])) := by
      rw [hprocess]
      rfl
    have hbody := runBody_copy (p := ⟨elastic,false,none⟩) hptr helastic
    rw [atomicStep_locked _ hnext]
    simp only [hprocess, hbody, Option.map_some]
  have hused : atomicStep (next target results)
      (ptr,Function.update own (.process j) ⟨ptr (target j),true,none⟩) (.process j) =
        some (ptr,Function.update own (.process j) ⟨ptr (target j),true,some (ptr (target j))⟩) := by
    have hnext : next target results (.process j)
        (Function.update own (.process j) ⟨ptr (target j),true,none⟩ (.process j)) =
          some (.own ⟨ptr (target j),true,some (ptr (target j))⟩) := by
      rw [Function.update_self]
      rfl
    rw [atomicStep_own _ hnext]
    exact congrArg (fun o => some (ptr,o)) (Function.update_idem ..)
  refine ⟨Function.update own (.process j) ⟨ptr (target j),true,some (ptr (target j))⟩,?_,?_⟩
  · rw [Runs.run_cons, hcopy, Option.bind_some, Runs.run_cons, hused]
    rfl
  · rw [Function.update_self]

omit own in
/-- From the first call of `recv`: the id and a sketch in parts, and then a report. -/
theorem exists_report (parts : List (List UInt8)) (hparts : ∀ p ∈ parts, p ≠ [])
    (htotal : parts.flatten.length = sketchSize)
    (hresults : ∀ i (hi : i < parts.length), results k (1 + i) = parts[i])
    (elastic : ν → List UInt8) (j : ν) (hj : target j = k) (hptr : (ptr k).length = sketchSize)
    (helastic : (elastic j).length = sketchSize) :
    ∃ acts s, Runs.run (step (next target results)) (start ptr elastic) acts = some s ∧
      (s.own (.process j)).used = some parts.flatten := by
  let own : ∀ i : Thread κ ν, Own κ ν i := (start ptr elastic).own
  have hown : Function.update own (.receive k) Loops.start = own := Function.update_eq_self ..
  have hid := atomicStep_receive target results ptr own k (c := Loops.start)
    (d := ⟨.outer,[],0,1,[]⟩) rfl (by simp [Loops.start])
  rw [hown] at hid
  have houter := atomicStep_receive target results ptr own k (c := ⟨.outer,[],0,1,[]⟩)
    (d := ⟨.inner,zeros sketchSize,0,1,[]⟩) rfl (by simp)
  obtain ⟨is,c',hreceive⟩ := run_parts target results ptr own k parts [] hparts
    (zeros_length sketchSize) hptr ((zero_add _).trans htotal) hresults
  rw [List.take_zero, List.nil_append] at hreceive
  have hprocess : Function.update own (.receive k) c' (.process j) = ⟨elastic j,false,none⟩ := rfl
  obtain ⟨own',hreport,hused⟩ := run_report target results (Function.update ptr k parts.flatten)
    (Function.update own (.receive k) c') j hprocess
    (by rw [hj, Function.update_self, htotal]) helastic
  rw [hj, Function.update_self] at hused
  have hrun : Runs.run (atomicStep (next target results)) (ptr,own)
      (.receive k :: .receive k :: (is ++ [.process j,.process j])) =
        some (Function.update ptr k parts.flatten,own') := by
    rw [Runs.run_cons, hid, Option.bind_some, Runs.run_cons, houter, Option.bind_some,
      Runs.run_append, hreceive, Option.bind_some, hreport]
  obtain ⟨acts,hacts⟩ := exists_run_of_atomic _ _ hrun
  exact ⟨acts,_,hacts,hused⟩

end Rounds

section Devices

variable {hh lh : Hashing} {servIp : List Char}

/-- A device after a run of its threads. -/
structure DeviceRun (hh lh : Hashing) (servIp : List Char) where
  ip : List Char
  raw : List UInt8
  buf : List UInt8
  raw_length : raw.length = Device.sketchBytes hh lh
  buf_length : buf.length = Device.sketchBytes hh lh
  frames : List (Frame × (ℕ → UInt8))
  acts : List (Action Device.Thread)
  state : State (List UInt8) Device.Own
  run_eq : Runs.run (step (Device.next hh lh ip servIp)) (Device.start hh lh raw buf frames) acts =
    some state

namespace DeviceRun

/-- The buffers passed to `send`. -/
def sent (d : DeviceRun hh lh servIp) : List (List UInt8) := (d.state.own .deliver).sent

/-- The keys of the packets accepted. -/
def packets (d : DeviceRun hh lh servIp) : List Key := Device.accepted d.ip servIp d.frames

theorem snapshots (d : DeviceRun hh lh servIp) :
    Device.Snapshots hh lh d.packets d.packets.length d.sent :=
  Device.sent_snapshots d.raw d.buf d.ip servIp d.frames d.acts d.state d.raw_length d.buf_length
    d.run_eq

end DeviceRun

theorem sketchBytes_eq (hbuckets : hh.size = 64) (hcounters : lh.size = 16*1024 - 64*124) :
    Device.sketchBytes hh lh = sketchSize := by
  rw [Device.sketchBytes, SketchImage.size_layout, SketchImage.size_heavyLayout,
    SketchImage.size_lightLayout, SketchImage.countersPadding, hbuckets, hcounters]
  rfl

omit [DecidableEq κ] [DecidableEq ν] in
theorem flatten_received_device (str : List UInt8) (chunks : List (List UInt8)) (n : ℕ) :
    (received (deviceResults str chunks) n).flatten <+: chunks.flatten := by
  obtain ⟨zs,hzs⟩ := received_device str chunks n
  have hflatten := congrArg List.flatten hzs
  rw [List.flatten_append, List.flatten_append, List.flatten_replicate_nil, List.append_nil] at hflatten
  exact ⟨_,hflatten⟩

/-- A report of the first sketch that a device has sent, received in three parts. -/
theorem exists_first_report (d : DeviceRun hh lh servIp) (target : ν → κ) {m : List UInt8}
    {rest : List (List UInt8)} (hsent : d.sent = m :: rest) (hm : m.length = sketchSize)
    (ptr : κ → List UInt8) (elastic : ν → List UInt8) (j : ν)
    (hptr : (ptr (target j)).length = sketchSize) (helastic : (elastic j).length = sketchSize) :
    ∃ results : ℕ → List UInt8, (∀ n, (received results n).flatten <+: d.sent.flatten) ∧
      ∃ acts s, Runs.run (step (next target fun _ => results)) (start ptr elastic) acts = some s ∧
        (s.own (.process j)).used = some m := by
  let parts := [m.take bufsiz,(m.drop bufsiz).take bufsiz,(m.drop bufsiz).drop bufsiz]
  have hflatten : parts.flatten = m := by
    simp only [parts, List.flatten_cons, List.flatten_nil, List.append_nil, List.take_append_drop]
  have hsize : m.length = 17432 := hm
  have hbufsiz : bufsiz = 8192 := rfl
  have hparts : ∀ p ∈ parts, p ≠ [] := by
    intro p hp
    refine List.length_pos_iff.mp ?_
    simp only [parts, List.mem_cons, List.not_mem_nil, or_false] at hp
    rcases hp with rfl | rfl | rfl
    · rw [List.length_take]
      omega
    · rw [List.length_take, List.length_drop]
      omega
    · rw [List.length_drop, List.length_drop]
      omega
  have hget (i : ℕ) (hi : i < parts.length) : deviceResults [49,0,0,0] parts (1 + i) = parts[i] := by
    rw [add_comm]
    exact List.getD_eq_getElem _ _ hi
  refine ⟨deviceResults [49,0,0,0] parts,fun n => ?_,?_⟩
  · refine (flatten_received_device _ _ n).trans ?_
    rw [hflatten, hsent, List.flatten_cons]
    exact List.prefix_append _ _
  · rw [← hflatten]
    exact exists_report target (fun _ => deviceResults [49,0,0,0] parts) ptr (target j) parts hparts
      (hflatten ▸ hm) hget elastic j rfl hptr helastic

/-- From the packets to the report: whatever the threads of the devices and of the server do in
what order, a report is made of the memory that `malloc` returned or of the sketch of the first
packets of that device. The first result of `recv` holds the ID and no more, the others cut what
was sent behind it anywhere, and a result that runs past the buffer is no step of the run. -/
theorem used_sketch (devices : κ → DeviceRun hh lh servIp) (ptr₀ : κ → List UInt8)
    (elastic : ν → List UInt8) (target : ν → κ) (results : κ → ℕ → List UInt8)
    (acts : List (Action (Thread κ ν))) (s : State (κ → List UInt8) (Own κ ν))
    (hbuckets : hh.size = 64) (hcounters : lh.size = 16*1024 - 64*124)
    (hptr : ∀ k, (ptr₀ k).length = sketchSize) (helastic : ∀ j, (elastic j).length = sketchSize)
    (hresults : ∀ k n, (received (results k) n).flatten <+: (devices k).sent.flatten)
    (hrun : Runs.run (step (next target results)) (start ptr₀ elastic) acts = some s) (j : ν)
    (m : List UInt8) (hused : (s.own (.process j)).used = some m) :
    m = ptr₀ (target j) ∨ ∃ n ≤ (devices (target j)).packets.length,
      ElasticSketch.insertAll hh lh ((devices (target j)).packets.take n) =
        some (ElasticSketch.read hh lh m) := by
  refine (used_received ptr₀ elastic target results acts s hptr helastic hrun j m hused).imp_right ?_
  rintro ⟨frames,⟨hframes,n,hreceived⟩,hm⟩
  have hsnapshots := (devices (target j)).snapshots
  have hsent : ∀ f ∈ (devices (target j)).sent, f.length = sketchSize := fun f hf =>
    (hsnapshots.of_mem hf).1.trans (sketchBytes_eq hbuckets hcounters)
  have hbegin : frames <+: (devices (target j)).sent :=
    isPrefix_of_flatten (by decide) hframes hsent (hreceived.trans (hresults _ n))
  exact (hsnapshots.of_mem (hbegin.subset hm)).2

theorem used_sketch_one_packet :
    let hh : Hashing := ⟨64,by decide,by decide,fun _ => 0⟩
    let lh : Hashing := ⟨8448,by decide,by decide,fun _ => 0⟩
    ∃ (d : DeviceRun hh lh (dotted ![192,168,1,10])) (results : ℕ → List UInt8)
      (acts : List (Action (Thread Unit Unit))) (s : State (Unit → List UInt8) (Own Unit Unit))
      (m : List UInt8),
      d.packets = [quintet Device.tcpFrame.byte] ∧
      Runs.run (step (next (fun _ => ()) fun _ => results))
        (start (fun _ => zeros sketchSize) fun _ => zeros sketchSize) acts = some s ∧
      (s.own (.process ())).used = some m ∧
      (m = zeros sketchSize ∨ ∃ n ≤ d.packets.length,
        ElasticSketch.insertAll hh lh (d.packets.take n) = some (ElasticSketch.read hh lh m)) := by
  intro hh lh
  let raw := zeros (Device.sketchBytes hh lh)
  have hraw : raw.length = Device.sketchBytes hh lh := zeros_length _
  have hkey : insertedKey (dotted ![192,168,1,2]) (dotted ![192,168,1,10])
      (Device.tcpFrame.content fun _ => 0) = some (quintet Device.tcpFrame.byte) := by
    decide +kernel
  have hdrop : insertedKey (dotted ![192,168,1,2]) (dotted ![192,168,1,10])
      (Device.icmpFrame.content fun _ => 0) = none := by
    decide +kernel
  obtain ⟨dacts,ds,-,hdacts,hlength⟩ := Device.exists_two_copies (dotted ![192,168,1,2])
    (dotted ![192,168,1,10]) [] hraw hraw hdrop hkey
  let d : DeviceRun hh lh (dotted ![192,168,1,10]) :=
    ⟨dotted ![192,168,1,2],raw,raw,hraw,hraw,
      [(Device.icmpFrame,fun _ => 0),(Device.tcpFrame,fun _ => 0)],dacts,ds,hdacts⟩
  obtain ⟨m,rest,hsent⟩ : ∃ m rest, d.sent = m :: rest :=
    List.exists_cons_of_length_pos (hlength.symm ▸ Nat.two_pos)
  have hm : m.length = sketchSize :=
    (d.snapshots.of_mem (hsent ▸ List.mem_cons_self)).1.trans (sketchBytes_eq rfl rfl)
  obtain ⟨results,hresults,acts,s,hrun,hused⟩ := exists_first_report d (fun _ : Unit => ()) hsent hm
    (fun _ => zeros sketchSize) (fun _ => zeros sketchSize) () (zeros_length _) (zeros_length _)
  refine ⟨d,results,acts,s,m,?_,hrun,hused,?_⟩
  · change Device.accepted _ _ [_,_] = _
    rw [Device.accepted_cons, hdrop, Device.accepted_cons, hkey]
    rfl
  · exact used_sketch (fun _ => d) (fun _ => zeros sketchSize) (fun _ => zeros sketchSize) (fun _ => ())
      (fun _ => results) acts s rfl rfl (fun _ => zeros_length _) (fun _ => zeros_length _)
      (fun _ => hresults) hrun () m hused

end Devices

end ServerThreads
end SketchMonitor
