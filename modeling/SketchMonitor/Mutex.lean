import SketchMonitor.Runs

/-!
# Threads with a common mutex

A thread alternates between statements on what only it can reach and critical sections on what
all threads share. The statements of a section are executed one by one while the other threads
go on. `Sim` takes a section back until its end, so every run is one of the machine that
executes sections at once, and what holds there of the threads holds of every interleaving.
-/

namespace SketchMonitor
namespace Mutex

/-- What a thread with private state `ρ` does next: it changes its private state, or it locks the
mutex for the statements of a section. A statement without a result has undefined behaviour. -/
inductive Cmd (σ ρ : Type*)
  | own (r : ρ)
  | locked (body : List (σ × ρ → Option (σ × ρ)))

/-- The statements of a section, one after the other. -/
def runBody {σ ρ : Type*} (p : σ × ρ) (body : List (σ × ρ → Option (σ × ρ))) : Option (σ × ρ) :=
  Runs.run (fun p f => f p) p body

variable {ι σ : Type*} {ρ : ι → Type*}

/-- The thread that holds the mutex, with the rest of its section. -/
structure State (σ : Type*) (ρ : ι → Type*) where
  shared : σ
  own : ∀ i, ρ i
  holder : Option (Σ i, List (σ × ρ i → Option (σ × ρ i)))

/-- A thread outside of its sections makes a step, or the holder of the mutex does. -/
inductive Action (ι : Type*)
  | step (i : ι)
  | proceed

variable (next : ∀ i, ρ i → Option (Cmd σ (ρ i)))

/-- The state of the atomic machine: without the section that is being executed. -/
def Sim (a : σ × ∀ i, ρ i) (s : State σ ρ) : Prop :=
  match s.holder with
  | none => a = (s.shared,s.own)
  | some ⟨i,rest⟩ => (∃ before, next i (a.2 i) = some (.locked (before ++ rest)) ∧
      runBody (a.1,a.2 i) before = some (s.shared,s.own i)) ∧ ∀ j ≠ i, a.2 j = s.own j

theorem sim_none {a : σ × ∀ i, ρ i} {s : State σ ρ} (hs : s.holder = none) :
    Sim next a s ↔ a = (s.shared,s.own) := by
  rw [Sim, hs]

theorem sim_some {a : σ × ∀ i, ρ i} {s : State σ ρ} {i : ι}
    {rest : List (σ × ρ i → Option (σ × ρ i))} (hs : s.holder = some ⟨i,rest⟩) :
    Sim next a s ↔ (∃ before, next i (a.2 i) = some (.locked (before ++ rest)) ∧
      runBody (a.1,a.2 i) before = some (s.shared,s.own i)) ∧ ∀ j ≠ i, a.2 j = s.own j := by
  rw [Sim, hs]

variable [DecidableEq ι]

def step (s : State σ ρ) : Action ι → Option (State σ ρ)
  | .step i =>
    if s.holder.map Sigma.fst = some i then none
    else match next i (s.own i) with
      | some (.own r) => some { s with own := Function.update s.own i r }
      | some (.locked body) =>
        if s.holder.isNone then some { s with holder := some ⟨i,body⟩ } else none
      | none => none
  | .proceed =>
    match s.holder with
    | some ⟨i,f :: rest⟩ =>
      (f (s.shared,s.own i)).map fun p => ⟨p.1,Function.update s.own i p.2,some ⟨i,rest⟩⟩
    | some ⟨_,[]⟩ => some { s with holder := none }
    | none => none

/-- A thread makes a step, a whole section at once. -/
def atomicStep (s : σ × ∀ i, ρ i) (i : ι) : Option (σ × ∀ i, ρ i) :=
  match next i (s.2 i) with
  | some (.own r) => some (s.1,Function.update s.2 i r)
  | some (.locked body) =>
    (runBody (s.1,s.2 i) body).map fun p => (p.1,Function.update s.2 i p.2)
  | none => none

theorem atomicStep_own {s : σ × ∀ i, ρ i} {i : ι} {r : ρ i} (h : next i (s.2 i) = some (.own r)) :
    atomicStep next s i = some (s.1,Function.update s.2 i r) := by
  rw [atomicStep, h]

theorem atomicStep_locked {s : σ × ∀ i, ρ i} {i : ι} {body : List (σ × ρ i → Option (σ × ρ i))}
    (h : next i (s.2 i) = some (.locked body)) : atomicStep next s i =
      (runBody (s.1,s.2 i) body).map fun p => (p.1,Function.update s.2 i p.2) := by
  rw [atomicStep, h]

theorem step_locked {s : State σ ρ} {i : ι} {body : List (σ × ρ i → Option (σ × ρ i))}
    (hholder : s.holder = none) (h : next i (s.own i) = some (.locked body)) :
    step next s (.step i) = some { s with holder := some ⟨i,body⟩ } := by
  simp [step, hholder, h]

theorem step_own {s : State σ ρ} {i : ι} {r : ρ i} (hi : s.holder.map Sigma.fst ≠ some i)
    (h : next i (s.own i) = some (.own r)) :
    step next s (.step i) = some { s with own := Function.update s.own i r } := by
  simp [step, hi, h]

theorem step_proceed {s : State σ ρ} {i : ι} {f : σ × ρ i → Option (σ × ρ i)}
    {rest : List (σ × ρ i → Option (σ × ρ i))} {p : σ × ρ i}
    (hholder : s.holder = some ⟨i,f :: rest⟩) (h : f (s.shared,s.own i) = some p) :
    step next s .proceed = some ⟨p.1,Function.update s.own i p.2,some ⟨i,rest⟩⟩ := by
  simp only [step, hholder, h, Option.map_some]

/-- What a step can do. -/
theorem step_cases {s t : State σ ρ} {x : Action ι} (h : step next s x = some t) :
    (∃ i r, s.holder.map Sigma.fst ≠ some i ∧ next i (s.own i) = some (.own r) ∧
      t = { s with own := Function.update s.own i r }) ∨
    (∃ i body, s.holder = none ∧ next i (s.own i) = some (.locked body) ∧
      t = { s with holder := some ⟨i,body⟩ }) ∨
    (∃ i f rest p, s.holder = some ⟨i,f :: rest⟩ ∧ f (s.shared,s.own i) = some p ∧
      t = ⟨p.1,Function.update s.own i p.2,some ⟨i,rest⟩⟩) ∨
    ∃ i, s.holder = some ⟨i,[]⟩ ∧ t = { s with holder := none } := by
  cases x with
  | step i =>
    rw [step] at h
    obtain ⟨hi,h⟩ := Option.ite_none_left_eq_some.mp h
    cases hnext : next i (s.own i) with
    | none => simp [hnext] at h
    | some c =>
      cases c with
      | own r => exact .inl ⟨i,r,hi,hnext,by simpa [hnext] using h.symm⟩
      | locked body =>
        simp only [hnext, Option.ite_none_right_eq_some, Option.isNone_iff_eq_none] at h
        exact .inr (.inl ⟨i,body,h.1,hnext,(Option.some.inj h.2).symm⟩)
  | proceed =>
    rw [step] at h
    cases hholder : s.holder with
    | none => simp [hholder] at h
    | some holder =>
      obtain ⟨i,body⟩ := holder
      cases body with
      | nil => exact .inr (.inr (.inr ⟨i,rfl,by simpa [hholder] using h.symm⟩))
      | cons f rest =>
        simp only [hholder, Option.map_eq_some_iff] at h
        obtain ⟨p,hp,rfl⟩ := h
        exact .inr (.inr (.inl ⟨i,f,rest,p,rfl,hp,rfl⟩))

/-- A statement of a thread is one of the atomic machine, or part of a section. -/
theorem Sim.step {a : σ × ∀ i, ρ i} {s t : State σ ρ} {x : Action ι} (h : Sim next a s)
    (hstep : step next s x = some t) :
    Sim next a t ∨ ∃ i a', atomicStep next a i = some a' ∧ Sim next a' t := by
  obtain ⟨i,r,hi,hnext,rfl⟩ | ⟨i,body,hholder,hnext,rfl⟩ | ⟨i,f,rest,p,hholder,hp,rfl⟩ |
    ⟨i,hholder,rfl⟩ := step_cases next hstep
  · right
    cases hholder : s.holder with
    | none =>
      obtain rfl := (sim_none next hholder).mp h
      exact ⟨i,(s.shared,Function.update s.own i r),atomicStep_own next hnext,
        (sim_none next rfl).mpr rfl⟩
    | some holder =>
      obtain ⟨k,rest⟩ := holder
      obtain ⟨⟨before,hk,hbefore⟩,hothers⟩ := (sim_some next hholder).mp h
      have hik : i ≠ k := by
        rintro rfl
        exact hi (by rw [hholder]; rfl)
      refine ⟨i,(a.1,Function.update a.2 i r),?_,(sim_some next rfl).mpr ⟨⟨before,?_,?_⟩,?_⟩⟩
      · exact atomicStep_own next (by rw [hothers i hik, hnext])
      · simpa only [Function.update_of_ne hik.symm] using hk
      · simpa only [Function.update_of_ne hik.symm] using hbefore
      · intro j hj
        by_cases hji : j = i
        · subst hji
          simp only [Function.update_self]
        · simpa only [Function.update_of_ne hji] using hothers j hj
  · left
    obtain rfl := (sim_none next hholder).mp h
    exact (sim_some next rfl).mpr ⟨⟨[],hnext,rfl⟩,fun _ _ => rfl⟩
  · left
    obtain ⟨⟨before,hnext,hbefore⟩,hothers⟩ := (sim_some next hholder).mp h
    refine (sim_some next rfl).mpr ⟨⟨before ++ [f],?_,?_⟩,fun j hj => ?_⟩
    · rw [hnext, List.append_assoc]; rfl
    · rw [runBody, Runs.run_concat, ← runBody, hbefore, Option.bind_some, hp]
      simp
    · simpa only [Function.update_of_ne hj] using hothers j hj
  · right
    obtain ⟨⟨before,hnext,hbefore⟩,hothers⟩ := (sim_some next hholder).mp h
    refine ⟨i,(s.shared,Function.update a.2 i (s.own i)),?_,?_⟩
    · rw [List.append_nil] at hnext
      rw [atomicStep_locked next hnext, hbefore]
      rfl
    · refine (sim_none next rfl).mpr (Prod.ext rfl (funext fun j => ?_))
      by_cases hj : j = i
      · subst hj
        exact Function.update_self ..
      · exact (Function.update_of_ne hj ..).trans (hothers j hj)

/-- Every run is one of the atomic machine up to the section being executed, so an invariant of
that machine holds of a state that differs only there. -/
theorem exists_sim {σ₀ : σ} {own₀ : ∀ i, ρ i} (Inv : σ × (∀ i, ρ i) → Prop) (h₀ : Inv (σ₀,own₀))
    (hinv : ∀ a i a', Inv a → atomicStep next a i = some a' → Inv a') (acts : List (Action ι))
    (s : State σ ρ) (hrun : Runs.run (step next) ⟨σ₀,own₀,none⟩ acts = some s) :
    ∃ a, Inv a ∧ Sim next a s := by
  refine Runs.run_preserves (fun _ s => ∃ a, Inv a ∧ Sim next a s)
    ⟨_,h₀,(sim_none next rfl).mpr rfl⟩ ?_ acts s hrun
  rintro _ x s t ⟨a,ha,hsim⟩ hstep
  obtain hsame | ⟨i,a',hatomic,hsim'⟩ := hsim.step next hstep
  · exact ⟨a,ha,hsame⟩
  · exact ⟨a',hinv a i a' ha hatomic,hsim'⟩

/-- What the sections of a thread do not change is the same in both machines. -/
theorem Sim.observe {ω : Type*} {a : σ × ∀ i, ρ i} {s : State σ ρ} (h : Sim next a s) (i : ι)
    (obs : ρ i → ω) (hobs : ∀ r body, next i r = some (.locked body) →
      ∀ f ∈ body, ∀ p q, f p = some q → obs q.2 = obs p.2) : obs (a.2 i) = obs (s.own i) := by
  cases hholder : s.holder with
  | none => rw [(sim_none next hholder).mp h]
  | some holder =>
    obtain ⟨k,rest⟩ := holder
    obtain ⟨⟨before,hnext,hbefore⟩,hothers⟩ := (sim_some next hholder).mp h
    by_cases hik : i = k
    · subst hik
      have hkeep := Runs.run_preserves_of (· ∈ before) (fun p => obs p.2 = obs (a.2 i)) rfl ?_ before
        (fun _ hf => hf) _ hbefore
      · exact hkeep.symm
      · intro p f q hf hp hq
        exact (hobs _ _ hnext f (List.mem_append_left _ hf) p q hq).trans hp
    · rw [hothers i hik]

/-- The statements of a section that nobody interrupts. -/
theorem run_body (i : ι) (body : List (σ × ρ i → Option (σ × ρ i))) (s : State σ ρ)
    (hholder : s.holder = some ⟨i,body⟩) {p : σ × ρ i}
    (hbody : runBody (s.shared,s.own i) body = some p) :
    Runs.run (step next) s (List.replicate (body.length + 1) .proceed) =
      some ⟨p.1,Function.update s.own i p.2,none⟩ := by
  induction body generalizing s with
  | nil =>
    obtain rfl : (s.shared,s.own i) = p := Option.some.inj hbody
    rw [Function.update_eq_self]
    simp [step, hholder]
  | cons f rest ih =>
    obtain ⟨q,hq,hrest⟩ := Option.bind_eq_some_iff.mp hbody
    have hrest' : runBody (q.1,Function.update s.own i q.2 i) rest = some p := by
      rw [Function.update_self]
      exact hrest
    rw [List.length_cons, List.replicate_succ, Runs.run_cons, step_proceed next hholder hq,
      Option.bind_some, ih _ rfl hrest', Function.update_idem]

/-- A section in which another thread makes a step after the first statement. -/
theorem run_interrupted {a : σ × ∀ i, ρ i} {i j : ι} (hji : j ≠ i) {r : ρ j}
    (hj : next j (a.2 j) = some (.own r)) {f : σ × ρ i → Option (σ × ρ i)}
    {rest : List (σ × ρ i → Option (σ × ρ i))} (hi : next i (a.2 i) = some (.locked (f :: rest)))
    {p : σ × ρ i} (hbody : runBody (a.1,a.2 i) (f :: rest) = some p) :
    Runs.run (step next) ⟨a.1,a.2,none⟩
      ([.step i,.proceed,.step j] ++ List.replicate (rest.length + 1) .proceed) =
        some ⟨p.1,Function.update (Function.update a.2 j r) i p.2,none⟩ := by
  obtain ⟨q,hq,hrest⟩ := Option.bind_eq_some_iff.mp hbody
  set own := Function.update a.2 i q.2 with hown
  have hj' : next j (own j) = some (.own r) := by rwa [hown, Function.update_of_ne hji]
  have hother : (some i : Option ι) ≠ some j := fun h => hji (Option.some.inj h).symm
  have hrest' : runBody (q.1,Function.update own j r i) rest = some p := by
    rw [Function.update_of_ne hji.symm, hown, Function.update_self]
    exact hrest
  have hlock : step next ⟨a.1,a.2,none⟩ (.step i) = some ⟨a.1,a.2,some ⟨i,f :: rest⟩⟩ :=
    step_locked next rfl hi
  have hfirst : step next ⟨a.1,a.2,some ⟨i,f :: rest⟩⟩ .proceed =
      some ⟨q.1,own,some ⟨i,rest⟩⟩ := step_proceed next rfl hq
  have hstep : step next ⟨q.1,own,some ⟨i,rest⟩⟩ (.step j) =
      some ⟨q.1,Function.update own j r,some ⟨i,rest⟩⟩ := step_own next hother hj'
  rw [List.cons_append, Runs.run_cons, hlock, Option.bind_some, List.cons_append, Runs.run_cons,
    hfirst, Option.bind_some, List.cons_append, Runs.run_cons, hstep, Option.bind_some,
    List.nil_append, run_body next i rest _ rfl hrest', hown, Function.update_comm hji,
    Function.update_idem, Function.update_comm hji.symm]

theorem run_of_atomicStep {a a' : σ × ∀ i, ρ i} {i : ι} (h : atomicStep next a i = some a') :
    ∃ acts, Runs.run (step next) ⟨a.1,a.2,none⟩ acts = some ⟨a'.1,a'.2,none⟩ := by
  cases hnext : next i (a.2 i) with
  | none => simp [atomicStep, hnext] at h
  | some c =>
    cases c with
    | own r =>
      rw [atomicStep_own next hnext] at h
      obtain rfl := Option.some.inj h
      exact ⟨[.step i],by simp [step, hnext]⟩
    | locked body =>
      rw [atomicStep_locked next hnext] at h
      obtain ⟨p,hp,rfl⟩ := Option.map_eq_some_iff.mp h
      refine ⟨.step i :: List.replicate (body.length + 1) .proceed,?_⟩
      rw [Runs.run_cons, step_locked next rfl hnext, Option.bind_some, run_body next i body _ rfl hp]

/-- If its section succeeds at once, the holder gets through the rest of it. -/
theorem Sim.exists_rest {a b : σ × ∀ i, ρ i} {s : State σ ρ} {i : ι}
    {rest : List (σ × ρ i → Option (σ × ρ i))} (h : Sim next a s)
    (hholder : s.holder = some ⟨i,rest⟩)
    (hatomic : atomicStep next a i = some b) : ∃ p, runBody (s.shared,s.own i) rest = some p ∧
      b = (p.1,Function.update s.own i p.2) := by
  obtain ⟨⟨before,hnext,hbefore⟩,hothers⟩ := (sim_some next hholder).mp h
  rw [atomicStep_locked next hnext, runBody, Runs.run_append, ← runBody, hbefore, Option.bind_some]
    at hatomic
  obtain ⟨p,hp,rfl⟩ := Option.map_eq_some_iff.mp hatomic
  refine ⟨p,hp,Prod.ext rfl (funext fun j => ?_)⟩
  by_cases hj : j = i
  · subst hj
    simp only [Function.update_self]
  · simp only [Function.update_of_ne hj]
    exact hothers j hj

theorem Sim.proceed {a b : σ × ∀ i, ρ i} {s : State σ ρ} {i : ι}
    {rest : List (σ × ρ i → Option (σ × ρ i))} (h : Sim next a s)
    (hholder : s.holder = some ⟨i,rest⟩)
    (hatomic : atomicStep next a i = some b) : ∃ t, Mutex.step next s .proceed = some t := by
  obtain ⟨p,hp,-⟩ := h.exists_rest next hholder hatomic
  cases rest with
  | nil => exact ⟨{ s with holder := none },by simp only [Mutex.step, hholder]⟩
  | cons f rest =>
    obtain ⟨q,hq,-⟩ := Option.bind_eq_some_iff.mp hp
    exact ⟨_,step_proceed next hholder hq⟩

theorem Sim.finish {a b : σ × ∀ i, ρ i} {s : State σ ρ} {i : ι}
    {rest : List (σ × ρ i → Option (σ × ρ i))} (h : Sim next a s)
    (hholder : s.holder = some ⟨i,rest⟩)
    (hatomic : atomicStep next a i = some b) :
    ∃ acts, Runs.run (Mutex.step next) s acts = some ⟨b.1,b.2,none⟩ := by
  obtain ⟨p,hp,rfl⟩ := h.exists_rest next hholder hatomic
  exact ⟨_,run_body next i rest s hholder hp⟩

/-- A run of the atomic machine is one in which nobody interrupts a section. -/
theorem exists_run_of_atomic (is : List ι) {a a' : σ × ∀ i, ρ i}
    (h : Runs.run (atomicStep next) a is = some a') :
    ∃ acts, Runs.run (step next) ⟨a.1,a.2,none⟩ acts = some ⟨a'.1,a'.2,none⟩ := by
  induction is generalizing a with
  | nil =>
    obtain rfl : a = a' := Option.some.inj h
    exact ⟨[],rfl⟩
  | cons i is ih =>
    obtain ⟨b,hb,hrest⟩ := Option.bind_eq_some_iff.mp h
    obtain ⟨acts,hacts⟩ := run_of_atomicStep next hb
    obtain ⟨acts',hacts'⟩ := ih hrest
    exact ⟨acts ++ acts',by rw [Runs.run_append, hacts, Option.bind_some, hacts']⟩

end Mutex
end SketchMonitor
