import SketchMonitor.Runs

/-!
# The sketch repository of the server

Every connection registers freshly allocated memory under the id of its device and
copies complete sketches into it. Nothing is ever taken out of the repository: the
code behind the receive loop that would free an entry is not reached. A report
goes through all entries, whatever they hold.
-/

namespace SketchMonitor
namespace Repository

variable {α : Type*}

/-- `sketches`, each entry as the content behind its pointer, and `client_id`. Memory
that has only been allocated has no content. The connections in `closed` have lost
their device. -/
structure Server (α : Type*) where
  sketches : List (Option α)
  clientId : ℕ → ℤ
  closed : List ℕ

inductive Step (α : Type*)
  | connect (cid : ℤ)
  | install (k : ℕ) (frame : α)
  | disconnect (k : ℕ)
  | report

def start : Server α := ⟨[],fun _ => 0,[]⟩

/-- The entry `k` belongs to a connection whose device can still send. -/
def Server.Active (s : Server α) (k : ℕ) : Prop := k < s.sketches.length ∧ k ∉ s.closed

instance (s : Server α) : DecidablePred s.Active :=
  fun k => inferInstanceAs (Decidable (k < s.sketches.length ∧ k ∉ s.closed))

def step (s : Server α) : Step α → Option (Server α)
  | .connect cid =>
    some { s with
      sketches := s.sketches ++ [none]
      clientId := Function.update s.clientId s.sketches.length cid }
  | .install k frame =>
    if s.Active k then some { s with sketches := s.sketches.set k (some frame) } else none
  | .disconnect k => if s.Active k then some { s with closed := k :: s.closed } else none
  | .report => some s

/-- What `makeJSON` aggregates: the id and the content of each entry. -/
def makeJSON (s : Server α) : List (ℤ × Option α) :=
  (List.range s.sketches.length).map fun k => (s.clientId k,s.sketches.getD k none)

/-- The ids sent by the connections, in the order in which these were registered. -/
def connectIds (steps : List (Step α)) : List ℤ :=
  steps.filterMap fun
    | .connect cid => some cid
    | _ => none

/-- The complete sketches received on connections that satisfy `p`. -/
def framesOn (p : ℕ → Bool) (steps : List (Step α)) : List α :=
  steps.filterMap fun
    | .install k frame => if p k then some frame else none
    | _ => none

/-- The most recent complete sketch of a device, on whichever connection it came. -/
def lastSent (steps : List (Step α)) (id : ℤ) : Option α :=
  (framesOn (fun k => (connectIds steps)[k]? = some id) steps).getLast?

/-- At most one sketch for each device, and that its most recent one. -/
structure ReportOk (steps : List (Step α)) (report : List (ℤ × Option α)) : Prop where
  nodup : (report.map Prod.fst).Nodup
  recent : ∀ entry ∈ report, ∃ frame, entry.2 = some frame ∧ lastSent steps entry.1 = some frame

/-- Different ids on all connections, and a complete sketch on each. -/
def Complete (steps : List (Step α)) : Prop :=
  (connectIds steps).Nodup ∧ ∀ k < (connectIds steps).length, ∃ frame, .install k frame ∈ steps

/-- The repository as the steps so far have left it. -/
structure Tracks (steps : List (Step α)) (s : Server α) : Prop where
  size : s.sketches.length = (connectIds steps).length
  ids : ∀ k < s.sketches.length, (connectIds steps)[k]? = some (s.clientId k)
  content : ∀ k < s.sketches.length,
    s.sketches[k]? = some (framesOn (fun j => j = k) steps).getLast?
  valid : ∀ k frame, .install k frame ∈ steps → k < s.sketches.length

@[simp] theorem connectIds_append (steps : List (Step α)) (a : Step α) :
    connectIds (steps ++ [a]) = connectIds steps ++ connectIds [a] := List.filterMap_append

@[simp] theorem framesOn_append (p : ℕ → Bool) (steps : List (Step α)) (a : Step α) :
    framesOn p (steps ++ [a]) = framesOn p steps ++ framesOn p [a] := List.filterMap_append

theorem mem_framesOn {p : ℕ → Bool} {steps : List (Step α)} {frame : α} :
    frame ∈ framesOn p steps ↔ ∃ k, p k ∧ .install k frame ∈ steps := by
  simp only [framesOn, List.mem_filterMap]
  constructor
  · rintro ⟨a,ha,h⟩
    cases a with
    | install k f =>
      simp only [Option.ite_none_right_eq_some, Option.some.injEq] at h
      exact ⟨k,h.1,h.2 ▸ ha⟩
    | connect cid => simp at h
    | disconnect k => simp at h
    | report => simp at h
  · rintro ⟨k,hk,hmem⟩
    exact ⟨_,hmem,by simp [hk]⟩

theorem Tracks.start : Tracks ([] : List (Step α)) start where
  size := rfl
  ids k hk := absurd hk (Nat.not_lt_zero k)
  content k hk := absurd hk (Nat.not_lt_zero k)
  valid _ _ hmem := absurd hmem List.not_mem_nil

/-- Steps that neither register nor install anything. -/
theorem Tracks.quiet {steps : List (Step α)} {s t : Server α} {a : Step α} (h : Tracks steps s)
    (hsketches : t.sketches = s.sketches) (hids : t.clientId = s.clientId)
    (hconnect : connectIds [a] = []) (hframes : ∀ p, framesOn p [a] = [])
    (hinstall : ∀ k frame, a ≠ .install k frame) : Tracks (steps ++ [a]) t where
  size := by rw [connectIds_append, hconnect, List.append_nil, hsketches, h.size]
  ids := by rw [connectIds_append, hconnect, List.append_nil, hsketches, hids]; exact h.ids
  content := by
    simp only [framesOn_append, hframes, List.append_nil, hsketches]
    exact h.content
  valid k frame hmem := by
    rw [List.mem_append, List.mem_singleton] at hmem
    rw [hsketches]
    exact h.valid k frame (hmem.resolve_right (hinstall k frame).symm)

theorem Tracks.connect {steps : List (Step α)} {s : Server α} (h : Tracks steps s) (cid : ℤ) :
    Tracks (steps ++ [.connect cid]) { s with
      sketches := s.sketches ++ [none]
      clientId := Function.update s.clientId s.sketches.length cid } := by
  obtain ⟨hsize,hids,hcontent,hvalid⟩ := h
  have hconnect : connectIds [(.connect cid : Step α)] = [cid] := rfl
  have hframes (p : ℕ → Bool) : framesOn p [(.connect cid : Step α)] = [] := rfl
  refine ⟨?_,fun k hk => ?_,fun k hk => ?_,fun k frame hmem => ?_⟩
  · simp [hconnect, hsize]
  · change _ = some (Function.update s.clientId s.sketches.length cid k)
    rw [connectIds_append, hconnect]
    rw [List.length_append, List.length_singleton] at hk
    by_cases hlt : k < s.sketches.length
    · rw [List.getElem?_append_left (hsize ▸ hlt), hids k hlt, Function.update_of_ne hlt.ne]
    · obtain rfl : k = s.sketches.length := by omega
      rw [List.getElem?_append_right hsize.ge, Function.update_self, hsize]
      simp
  · rw [framesOn_append, hframes, List.append_nil]
    rw [List.length_append, List.length_singleton] at hk
    by_cases hlt : k < s.sketches.length
    · rw [List.getElem?_append_left hlt, hcontent k hlt]
    · obtain rfl : k = s.sketches.length := by omega
      -- no sketch can have been installed at an index not yet registered
      have hnone : framesOn (fun j => j = s.sketches.length) steps = [] := by
        refine List.eq_nil_iff_forall_not_mem.mpr fun frame hmem => ?_
        obtain ⟨j,hj,hinstall⟩ := mem_framesOn.mp hmem
        exact (hvalid j frame hinstall).ne (of_decide_eq_true hj)
      simp [hnone]
  · rw [List.length_append, List.length_singleton]
    exact Nat.lt_succ_of_lt (hvalid k frame (by simpa using hmem))

theorem Tracks.install {steps : List (Step α)} {s : Server α} (h : Tracks steps s) {k : ℕ}
    (hk : k < s.sketches.length) (frame : α) :
    Tracks (steps ++ [.install k frame]) { s with sketches := s.sketches.set k (some frame) } := by
  obtain ⟨hsize,hids,hcontent,hvalid⟩ := h
  have hconnect : connectIds [(.install k frame : Step α)] = [] := rfl
  refine ⟨?_,fun j hj => ?_,fun j hj => ?_,fun j f hmem => ?_⟩
  · simp [hconnect, hsize]
  · rw [connectIds_append, hconnect, List.append_nil]
    exact hids j (by simpa using hj)
  · rw [framesOn_append]
    by_cases hjk : j = k
    · subst j
      have hframes : framesOn (fun j => j = k) [.install k frame] = [frame] := by simp [framesOn]
      rw [List.getElem?_set_self hk, hframes, List.getLast?_concat]
    · have hframes : framesOn (fun i => i = j) [.install k frame] = [] := by
        simp [framesOn, Ne.symm hjk]
      rw [List.getElem?_set_ne (Ne.symm hjk), hframes, List.append_nil]
      exact hcontent j (by simpa using hj)
  · rw [List.length_set]
    rw [List.mem_append, List.mem_singleton, Step.install.injEq] at hmem
    rcases hmem with hmem | ⟨rfl,-⟩
    · exact hvalid j f hmem
    · exact hk

theorem Tracks.step {steps : List (Step α)} {s t : Server α} {a : Step α} (h : Tracks steps s)
    (ha : step s a = some t) : Tracks (steps ++ [a]) t := by
  cases a with
  | connect cid =>
    obtain rfl := Option.some.inj ha
    exact h.connect cid
  | install k frame =>
    simp only [Repository.step, Option.ite_none_right_eq_some, Option.some.injEq] at ha
    obtain ⟨hactive,rfl⟩ := ha
    exact h.install hactive.1 frame
  | disconnect k =>
    simp only [Repository.step, Option.ite_none_right_eq_some, Option.some.injEq] at ha
    obtain ⟨hactive,rfl⟩ := ha
    exact h.quiet rfl rfl rfl (fun _ => rfl) (by simp)
  | report =>
    obtain rfl := Option.some.inj ha
    exact h.quiet rfl rfl rfl (fun _ => rfl) (by simp)

theorem run_tracks {steps : List (Step α)} {s : Server α}
    (h : Runs.run Repository.step Repository.start steps = some s) : Tracks steps s :=
  Runs.run_preserves Tracks Tracks.start (fun _ _ _ _ ht ha => ht.step ha) steps s h

/-- The entries of a report are the registered ids with the last sketch of each connection. -/
theorem Tracks.makeJSON_eq {steps : List (Step α)} {s : Server α} (h : Tracks steps s) :
    (makeJSON s).map Prod.fst = connectIds steps := by
  refine List.ext_getElem? fun k => ?_
  by_cases hk : k < s.sketches.length
  · simp [makeJSON, hk, h.ids k hk]
  · simp [makeJSON, hk, ← h.size]

theorem Tracks.lastSent_eq {steps : List (Step α)} {s : Server α} (h : Tracks steps s)
    (hnodup : (connectIds steps).Nodup) {k : ℕ} (hk : k < s.sketches.length) :
    lastSent steps (s.clientId k) = (framesOn (fun j => j = k) steps).getLast? := by
  unfold lastSent framesOn
  congr 1
  refine List.filterMap_congr fun a ha => ?_
  cases a with
  | install j frame =>
    have hj := h.valid j frame ha
    have hsame : s.clientId j = s.clientId k ↔ j = k := by
      refine ⟨fun heq => ?_,fun heq => heq ▸ rfl⟩
      refine (List.getElem?_inj (h.size ▸ hj) hnodup).mp ?_
      rw [h.ids j hj, h.ids k hk, heq]
    simp [h.ids j hj, hsame]
  | connect cid => rfl
  | disconnect j => rfl
  | report => rfl

theorem mem_makeJSON {s : Server α} {entry : ℤ × Option α} :
    entry ∈ makeJSON s ↔ ∃ k < s.sketches.length, entry = (s.clientId k,s.sketches.getD k none) := by
  simp only [makeJSON, List.mem_map, List.mem_range]
  exact exists_congr fun k => and_congr_right fun _ => eq_comm

/-- A report is right exactly when its entries are complete and of different devices. -/
theorem Tracks.reportOk_iff {steps : List (Step α)} {s : Server α} (h : Tracks steps s) :
    ReportOk steps (makeJSON s) ↔ Complete steps := by
  have hcontent {k : ℕ} (hk : k < s.sketches.length) :
      s.sketches.getD k none = (framesOn (fun j => j = k) steps).getLast? := by
    rw [List.getD_eq_getElem?_getD, h.content k hk, Option.getD_some]
  constructor
  · rintro ⟨hnodup,hrecent⟩
    refine ⟨h.makeJSON_eq ▸ hnodup,fun k hk => ?_⟩
    rw [← h.size] at hk
    obtain ⟨frame,hframe,-⟩ := hrecent _ (mem_makeJSON.mpr ⟨k,hk,rfl⟩)
    rw [hcontent hk] at hframe
    obtain ⟨j,hj,hinstall⟩ := mem_framesOn.mp (List.mem_of_getLast? hframe)
    obtain rfl : j = k := of_decide_eq_true hj
    exact ⟨frame,hinstall⟩
  · rintro ⟨hnodup,hcomplete⟩
    refine ⟨h.makeJSON_eq ▸ hnodup,fun entry hentry => ?_⟩
    obtain ⟨k,hk,rfl⟩ := mem_makeJSON.mp hentry
    obtain ⟨frame,hinstall⟩ := hcomplete k (h.size ▸ hk)
    have hmem : frame ∈ framesOn (fun j => j = k) steps := mem_framesOn.mpr ⟨k,by simp,hinstall⟩
    obtain ⟨last,hlast⟩ := Option.isSome_iff_exists.mp
      (List.getLast?_isSome.mpr (List.ne_nil_of_mem hmem))
    exact ⟨last,by rw [hcontent hk, hlast],by rw [h.lastSent_eq hnodup hk, hlast]⟩

/-- Every report taken in the run is right. -/
def ReportsOk (steps : List (Step α)) : Prop :=
  ∀ before s, before ++ [.report] <+: steps →
    Runs.run Repository.step Repository.start before = some s → ReportOk before (makeJSON s)

/-- In a run of the server all reports are right if and only if each of them is taken
when all registered ids are different and each connection has installed a sketch. -/
theorem reportsOk_iff (steps : List (Step α))
    (hrun : ∃ s, Runs.run Repository.step Repository.start steps = some s) :
    ReportsOk steps ↔ ∀ before, before ++ [.report] <+: steps → Complete before := by
  have hbefore {before : List (Step α)} (h : before ++ [.report] <+: steps) :
      ∃ s, Runs.run Repository.step Repository.start before = some s := by
    obtain ⟨after,rfl⟩ := h
    obtain ⟨s,hs⟩ := hrun
    rw [Runs.run_append, Runs.run_append, Option.bind_assoc] at hs
    obtain ⟨t,ht,-⟩ := Option.bind_eq_some_iff.mp hs
    exact ⟨t,ht⟩
  constructor
  · intro h before hpre
    obtain ⟨s,hs⟩ := hbefore hpre
    exact (run_tracks hs).reportOk_iff.mp (h before s hpre hs)
  · intro h before s hpre hs
    exact (run_tracks hs).reportOk_iff.mpr (h before hpre)

/-- Two devices, each with a complete sketch when the report is taken. -/
theorem reportsOk_iff_two_devices :
    ReportsOk [.connect 3,.connect 4,.install 1 'b',.install 0 'a',.report] := by
  refine (reportsOk_iff _ ⟨_,rfl⟩).mpr fun before hpre => ?_
  have hbefore : before = [.connect 3,.connect 4,.install 1 'b',.install 0 'a'] := by
    have hconcat : before ++ [.report] <+:
        [Step.connect 3,.connect 4,.install 1 'b',.install 0 'a'] ++ [.report] := hpre
    rcases List.prefix_concat_iff.mp hconcat with heq | hshort
    · exact List.append_cancel_right heq
    · have hmem := hshort.subset (List.mem_append_right _ (List.mem_singleton_self _))
      simp at hmem
  subst hbefore
  refine ⟨by decide,fun k hk => ?_⟩
  obtain rfl | rfl : k = 0 ∨ k = 1 := by
    change k < 2 at hk
    omega
  · exact ⟨'a',by simp⟩
  · exact ⟨'b',by simp⟩

/-- A report between the registration of a device and its first sketch aggregates memory
never written; one after a device has connected again aggregates its old entry too. -/
theorem reportsOk_fails :
    ¬ ReportsOk [.connect 3,(.report : Step Char)] ∧
    ¬ ReportsOk [.connect 3,.install 0 'a',.disconnect 0,.connect 3,.install 1 'b',.report] := by
  constructor
  · intro h
    obtain ⟨frame,hframe,-⟩ := (h [.connect 3] _ List.prefix_rfl rfl).recent (3,none) (by decide)
    exact absurd hframe (by simp)
  · intro h
    have hreport := h [.connect 3,.install 0 'a',.disconnect 0,.connect 3,.install 1 'b'] _
      List.prefix_rfl rfl
    exact absurd hreport.nodup (by decide)

end Repository
end SketchMonitor
