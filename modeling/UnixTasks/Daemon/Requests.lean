import UnixTasks.Daemon.Pairing
import Mathlib.Data.List.Chain

/-!
# The requests of the controller

A handler restarts the event loop and does not come back, so that its signal stays blocked: the first request of a kind
is served, and every later one only becomes pending.

* (`State.handlers`) the signals whose handlers are running;
* (`State.target`) the path that a request has asked for last: it is in the shared memory while the signal is pending,
  and the path of the daemon otherwise;
* (`served_step`) what a step keeps, if no request comes while the handler of its signal is running;
* (`stays_step`) no handler returns while `read` never returns 0.
-/

namespace UnixTasks.Daemon

open ActionSystem CChar

def Frame.handler : Frame → Option SigNo
  | .caller sig _ => sig
  | _ => none

/-- The signals whose handlers are running. -/
def State.handlers (s : State) : List SigNo := s.stack.filterMap Frame.handler

/-- The path that the handler of the signal sets. -/
def State.path (s : State) : SigNo → Str
  | .usr1 => s.pathArgv2
  | .usr2 => s.pathArgv1

def State.target (s : State) (sig : SigNo) : Str := if sig ∈ s.pending then (s.shm sig).getD [] else s.path sig

/-- The path that the requests of a run have asked for last, `dir` if none has. -/
def requested (sig : SigNo) : Str → List Action → Str
  | dir, [] => dir
  | dir, .request sig' dir' :: as => requested sig (if sig' = sig then dir' else dir) as
  | dir, _ :: as => requested sig dir as

/-- A request comes only while the handler of its signal is not running. -/
def Unblocked (s : State) : Action → Prop
  | .request sig _ => sig ∉ s.handlers
  | _ => True

private theorem mem_handlers {s : State} {sig : SigNo} : sig ∈ s.handlers ↔ ∃ l, .caller (some sig) l ∈ s.stack := by
  rw [State.handlers, List.mem_filterMap]
  constructor
  · rintro ⟨f, hf, heq⟩
    cases f with
    | caller sig' l =>
      obtain rfl : sig' = some sig := heq
      exact ⟨l, hf⟩
    | scan | events => cases heq
  · rintro ⟨l, hl⟩
    exact ⟨_, hl, rfl⟩

/-! ### The steps of the daemon itself -/

/-- The paths and the requests are as before, and no handler has started. -/
structure Keeps (s s' : State) : Prop where
  path : s'.path = s.path
  shm : s'.shm = s.shm
  pending : s'.pending = s.pending
  handlers : s'.handlers ⊆ s.handlers

section Step

variable {s : State}

private theorem Moves.keeps {s' : State} (hm : Moves s s') : Keeps s s' := by
  have hrest : ∀ {f : Frame} {rest : List Frame}, s.stack = f :: rest →
      rest.filterMap Frame.handler ⊆ s.handlers := by
    intro f rest hstack
    rw [State.handlers, hstack]
    exact ((List.sublist_cons_self f rest).filterMap _).subset
  cases hm with
  | scanReturns hstack | scanGoes hstack | scanCalls hstack =>
    have hsub := hrest hstack
    exact ⟨rfl, rfl, rfl, hsub⟩
  | eventsReturns hstack | eventsGoes hstack | eventsCalls hstack | callerReturns hstack =>
    have hsub := hrest hstack
    exact ⟨rfl, rfl, rfl, hsub⟩
  | scanWatches hstack wd =>
    have hsub := hrest hstack
    cases wd with
    | none => exact ⟨rfl, rfl, rfl, hsub⟩
    | some wd => exact ⟨rfl, rfl, rfl, hsub⟩
  | callerListens hstack =>
    refine ⟨rfl, rfl, rfl, ?_⟩
    rw [State.handlers, State.handlers, hstack]
    exact List.Subset.refl _

theorem keeps_next (s : State) : s.next.Always s.issued (Keeps s) := (moves_next s).mono fun _ hm => hm.keeps

/-! ### One step -/

/-- Whatever is pending has its path in the shared memory, and its handler is not running. -/
def Served (s : State) : Prop := ∀ sig ∈ s.pending, s.shm sig ≠ none ∧ sig ∉ s.handlers

theorem request_eq {sig : SigNo} {dir : Str} {s' : State} (hstep : s.step (.request sig dir) = some s') :
    s' = s.request sig dir := by
  simp only [State.step] at hstep
  split at hstep
  · exact (Option.some.inj hstep).symm
  · cases hstep

theorem mem_pending_request {sig sig' : SigNo} {dir : Str} :
    sig' ∈ (s.request sig dir).pending ↔ sig' = sig ∨ sig' ∈ s.pending := by
  rw [State.request, List.mem_cons, List.mem_filter, decide_eq_true_eq]
  constructor
  · rintro (h | ⟨h, -⟩)
    · exact .inl h
    · exact .inr h
  · intro h
    by_cases heq : sig' = sig
    · exact .inl heq
    · exact .inr ⟨h.resolve_left heq, heq⟩

private theorem served_request (h : Served s) {sig : SigNo} (dir : Str) (hblock : sig ∉ s.handlers) :
    Served (s.request sig dir) := by
  intro sig' hsig'
  by_cases heq : sig' = sig
  · subst heq
    refine ⟨?_, hblock⟩
    simp [State.request]
  · have hpending := (mem_pending_request.1 hsig').resolve_left heq
    have hshm : (s.request sig dir).shm sig' = s.shm sig' := Function.update_of_ne heq ..
    rw [hshm]
    exact h sig' hpending

private theorem target_request (sig sig' : SigNo) (dir : Str) :
    (s.request sig dir).target sig' = if sig = sig' then dir else s.target sig' := by
  by_cases heq : sig = sig'
  · subst heq
    rw [if_pos rfl, State.target, if_pos (mem_pending_request.2 (.inl rfl))]
    simp [State.request]
  · have hshm : (s.request sig dir).shm sig' = s.shm sig' := Function.update_of_ne (Ne.symm heq) ..
    have hpath : (s.request sig dir).path sig' = s.path sig' := by cases sig' <;> rfl
    have hmem : sig' ∈ (s.request sig dir).pending ↔ sig' ∈ s.pending := by
      rw [mem_pending_request, or_iff_right (Ne.symm heq)]
    simp only [if_neg heq, State.target, hmem, hshm, hpath]

/-- The start of a handler. -/
theorem handle_eq {sig : SigNo} {s' : State} (hstep : s.handle sig = some s') :
    ∃ dir, s.shm sig = some dir ∧ sig ∈ s.pending ∧ s'.pending = s.pending.filter (fun p => p ≠ sig) ∧
      s'.shm = Function.update s.shm sig none ∧ s'.handlers = sig :: s.handlers ∧
      ∀ sig', s'.path sig' = if sig' = sig then dir else s.path sig' := by
  obtain ⟨⟨-, hmem, -⟩, dir, hdir, rfl⟩ := handle_eq_some hstep
  refine ⟨dir, hdir, hmem, rfl, rfl, rfl, ?_⟩
  intro sig'
  cases sig <;> cases sig' <;> rfl

theorem served_handle (h : Served s) {sig : SigNo} {s' : State} (hstep : s.handle sig = some s') : Served s' := by
  obtain ⟨dir, -, -, hpending, hshm, hhandlers, -⟩ := handle_eq hstep
  intro sig' hsig'
  rw [hpending, List.mem_filter, decide_eq_true_eq] at hsig'
  obtain ⟨hmem, hne⟩ := hsig'
  obtain ⟨hsome, hnot⟩ := h sig' hmem
  rw [hshm, Function.update_of_ne hne, hhandlers, List.mem_cons, not_or]
  exact ⟨hsome, hne, hnot⟩

private theorem target_handle {sig : SigNo} {s' : State} (hstep : s.handle sig = some s') (sig' : SigNo) :
    s'.target sig' = s.target sig' := by
  obtain ⟨dir, hdir, hmem, hpending, hshm, -, hpath⟩ := handle_eq hstep
  by_cases heq : sig' = sig
  · subst heq
    have hnot : sig' ∉ s'.pending := by
      rw [hpending, List.mem_filter]
      simp
    rw [State.target, if_neg hnot, hpath, if_pos rfl, State.target, if_pos hmem, hdir, Option.getD_some]
  · have hiff : sig' ∈ s'.pending ↔ sig' ∈ s.pending := by
      rw [hpending, List.mem_filter, decide_eq_true_eq, and_iff_left heq]
    simp only [State.target, hiff, hshm, hpath, if_neg heq, Function.update_of_ne heq]

theorem Keeps.served {s' : State} (hk : Keeps s s') (h : Served s) : Served s' := by
  intro sig hsig
  rw [hk.pending] at hsig
  obtain ⟨hsome, hnot⟩ := h sig hsig
  rw [hk.shm]
  exact ⟨hsome, fun hmem => hnot (hk.handlers hmem)⟩

theorem Keeps.target {s' : State} (hk : Keeps s s') (sig : SigNo) : s'.target sig = s.target sig := by
  rw [State.target, State.target, hk.pending, hk.shm, hk.path]

/-- A step keeps the invariant, and the target of a signal is what has been requested last. -/
theorem served_step {s' : State} {a : Action} (h : Served s) (ha : Unblocked s a) (hstep : s.step a = some s') :
    Served s' ∧ ∀ sig as, requested sig (s'.target sig) as = requested sig (s.target sig) (a :: as) := by
  cases a with
  | request sig dir =>
    obtain rfl := request_eq hstep
    refine ⟨served_request h dir ha, fun sig' as => ?_⟩
    rw [requested, target_request]
  | handle sig =>
    refine ⟨served_handle h hstep, fun sig' as => ?_⟩
    rw [requested, target_handle hstep]
    exact fun _ _ => Action.noConfusion
  | tau | opendir | addWatch | readdir | read =>
    have hk : Keeps s s' := answer_of_always (keeps_next s) (by simp) (by simp) hstep
    refine ⟨hk.served h, fun sig' as => ?_⟩
    rw [requested, hk.target]
    exact fun _ _ => Action.noConfusion

end Step

theorem served_main {argv1 argv2 : Str} {s : State} (h : main argv1 argv2 = some s) :
    Served s ∧ s.target .usr1 = argv2 ∧ s.target .usr2 = argv1 := by
  obtain ⟨-, rfl⟩ := main_eq_some h
  exact ⟨fun sig hsig => absurd hsig List.not_mem_nil, rfl, rfl⟩

/-! ### Requests that are not served -/

/-- Only `monitor_events` runs in a function that has called it. -/
def Calls (f g : Frame) : Prop := ∀ sig, g = .caller sig true → ∃ evs pc, f = .events evs pc

/-- No function has come back from `monitor_events`. -/
structure Listening (stack : List Frame) : Prop where
  head : ∀ sig, stack.head? ≠ some (.caller sig true)
  chain : stack.IsChain Calls

/-- The handlers of a state are still running, and the same signals are pending. -/
structure Stays (s s' : State) : Prop where
  listening : Listening s'.stack
  handlers : s.handlers ⊆ s'.handlers
  pending : s.pending ⊆ s'.pending

private theorem listening_cons {f : Frame} {rest : List Frame} (hf : ∀ sig, f ≠ .caller sig true)
    (h : ∀ g ∈ rest.head?, Calls f g) (hrest : rest.IsChain Calls) : Listening (f :: rest) := by
  refine ⟨fun sig heq => hf sig (Option.some.inj heq), ?_⟩
  cases rest with
  | nil => exact .singleton f
  | cons g rest => exact List.isChain_cons_cons.2 ⟨h g rfl, hrest⟩

/-- A frame that is not `monitor_events` has been called from a function that has not called `monitor_events`. -/
private theorem Listening.head_rest {f : Frame} {rest : List Frame} (h : Listening (f :: rest))
    (hf : ∀ evs pc, f ≠ .events evs pc) : ∀ sig, rest.head? ≠ some (.caller sig true) := by
  intro sig heq
  cases rest with
  | nil => cases heq
  | cons g rest =>
    obtain ⟨evs, pc, hevs⟩ := (List.isChain_cons_cons.1 h.chain).1 sig (Option.some.inj heq)
    exact hf evs pc hevs

theorem Listening.rest {f : Frame} {rest : List Frame} (h : Listening (f :: rest))
    (hf : ∀ evs pc, f ≠ .events evs pc) : Listening rest :=
  ⟨h.head_rest hf, h.chain.tail⟩

/-- Any frame but such a function may stand above a frame that is not one. -/
theorem Listening.cons {f : Frame} {stack : List Frame} (h : Listening stack) (hf : ∀ sig, f ≠ .caller sig true) :
    Listening (f :: stack) := by
  refine listening_cons hf ?_ h.chain
  intro g hg sig heq
  rw [heq] at hg
  exact absurd hg (h.head sig)

/-- `monitor_events` may go on with other events. -/
theorem Listening.events {evs evs' : List Event} {pc pc' : EventPc} {rest : List Frame}
    (h : Listening (.events evs pc :: rest)) : Listening (.events evs' pc' :: rest) := by
  refine listening_cons (fun sig => Frame.noConfusion) ?_ h.chain.tail
  exact fun g hg sig heq => ⟨evs', pc', rfl⟩

section Stay

variable {s : State}

/-- A function that has not called `monitor_events` goes on, calls another one, or returns to one that has not
either. -/
theorem Moves.stays {s' : State} (hm : Moves s s') (h : Listening s.stack) (hwaits : s.waits = false) : Stays s s' := by
  have hpending : s.pending ⊆ s'.pending := by
    rw [hm.keeps.pending]
    exact List.Subset.refl _
  -- the handlers are below the innermost function
  have hrest : ∀ {f : Frame} {rest : List Frame}, s.stack = f :: rest → f.handler = none →
      s.handlers ⊆ rest.filterMap Frame.handler := by
    intro f rest hstack hf
    rw [State.handlers, hstack, List.filterMap_cons_none hf]
    exact List.Subset.refl _
  cases hm with
  | scanReturns hstack =>
    have hsub := hrest hstack rfl
    rw [hstack] at h
    exact ⟨h.rest fun evs pc => Frame.noConfusion, hsub, hpending⟩
  | scanGoes hstack pc' =>
    have hsub := hrest hstack rfl
    rw [hstack] at h
    have hlistening := h.rest fun evs pc => Frame.noConfusion
    exact ⟨hlistening.cons fun sig => Frame.noConfusion, hsub, hpending⟩
  | scanWatches hstack wd =>
    have hsub := hrest hstack rfl
    rw [hstack] at h
    have hlistening := h.rest fun evs pc => Frame.noConfusion
    exact ⟨hlistening.cons fun sig => Frame.noConfusion, hsub, hpending⟩
  | @scanCalls path1 path2 pc rest hstack name pc' =>
    have hsub := hrest hstack rfl
    rw [hstack] at h
    have hcaller : Listening (.scan path1 path2 pc' :: rest) :=
      (h.rest fun evs pc => Frame.noConfusion).cons fun sig => Frame.noConfusion
    exact ⟨hcaller.cons fun sig => Frame.noConfusion, hsub, hpending⟩
  | eventsReturns hstack =>
    rw [State.waits, hstack] at hwaits
    cases hwaits
  | eventsGoes hstack hevs' pc' =>
    have hsub := hrest hstack rfl
    rw [hstack] at h
    exact ⟨h.events, hsub, hpending⟩
  | eventsCalls hstack hpath1 hpath2 hevs' pc' =>
    have hsub := hrest hstack rfl
    rw [hstack] at h
    exact ⟨h.events.cons fun sig => Frame.noConfusion, hsub, hpending⟩
  | @callerListens sig rest hstack =>
    rw [hstack] at h
    have hlistening : Listening rest := h.rest fun evs pc => Frame.noConfusion
    have hcaller : (Frame.caller sig true :: rest).IsChain Calls := by
      cases rest with
      | nil => exact .singleton _
      | cons g rest =>
        refine List.isChain_cons_cons.2 ⟨fun sig' heq => ?_, hlistening.chain⟩
        exact absurd (congrArg some heq) (hlistening.head sig')
    refine ⟨listening_cons (fun sig => Frame.noConfusion) ?_ hcaller, ?_, hpending⟩
    · exact fun g hg sig' heq => ⟨[], .check, rfl⟩
    · rw [State.handlers, State.handlers, hstack]
      exact List.Subset.refl _
  | callerReturns hstack =>
    rw [hstack] at h
    exact absurd rfl (h.head _)

private theorem stays_next (h : Listening s.stack) (hwaits : s.waits = false) : s.next.Always s.issued (Stays s) :=
  (moves_next s).mono fun _ hm => hm.stays h hwaits

/-- A waiting daemon takes no step but a `read`, a request or the start of a handler. -/
private theorem next_of_waits (hwaits : s.waits = true) :
    ∃ pc rest, s.stack = .events [] pc :: rest ∧ s.next = .read fun
      | none => { s with stack := rest }
      | some evs => { s with stack := .events evs .check :: rest } := by
  unfold State.waits at hwaits
  split at hwaits
  · rename_i pc rest hstack
    refine ⟨pc, rest, hstack, ?_⟩
    rw [State.next, hstack]
    rfl
  · cases hwaits

/-- Nobody comes back while `read` never returns 0. -/
theorem stays_step {s' : State} {a : Action} (sig : SigNo) (h : Listening s.stack) (ha : a ≠ .read none)
    (hstep : s.step a = some s') :
    Listening s'.stack ∧ s.handlers ⊆ s'.handlers ∧ (sig ∈ s.handlers → sig ∈ s.pending → sig ∈ s'.pending) := by
  have hstays : Stays s s' → Listening s'.stack ∧ s.handlers ⊆ s'.handlers ∧
      (sig ∈ s.handlers → sig ∈ s.pending → sig ∈ s'.pending) :=
    fun hs => ⟨hs.listening, hs.handlers, fun _ hmem => hs.pending hmem⟩
  cases a with
  | request sig' dir =>
    obtain rfl := request_eq hstep
    exact ⟨h, List.Subset.refl _, fun _ hmem => mem_pending_request.2 (.inr hmem)⟩
  | handle sig' =>
    have heq := handle_eq hstep
    obtain ⟨dir, -, -, hpending, -, hhandlers, -⟩ := heq
    refine ⟨?_, ?_, ?_⟩
    · obtain ⟨-, dir, -, rfl⟩ := handle_eq_some hstep
      refine Listening.cons (Listening.cons h ?_) fun sig => Frame.noConfusion
      intro sig heq
      cases heq
    · rw [hhandlers]
      exact List.subset_cons_self ..
    · intro hrunning hmem
      rw [hpending, List.mem_filter, decide_eq_true_eq]
      refine ⟨hmem, fun heq => ?_⟩
      subst heq
      obtain ⟨l, hl⟩ := mem_handlers.1 hrunning
      simp only [State.step, State.handle] at hstep
      rw [if_neg fun hcan => hcan.2.2 l hl] at hstep
      cases hstep
  | read evs =>
    cases hwaits : s.waits with
    | false => exact hstays (answer_of_always (stays_next h hwaits) (by simp) (by simp) hstep)
    | true =>
      obtain ⟨pc, rest, hstack, hnext⟩ := next_of_waits hwaits
      cases evs with
      | none => exact absurd rfl ha
      | some evs =>
        simp only [State.step, hnext] at hstep
        split at hstep
        · obtain rfl := Option.some.inj hstep
          rw [hstack] at h
          refine hstays ⟨h.events, ?_, List.Subset.refl _⟩
          rw [State.handlers, State.handlers, hstack]
          exact List.Subset.refl _
        · cases hstep
  | tau | opendir | addWatch | readdir =>
    cases hwaits : s.waits with
    | false => exact hstays (answer_of_always (stays_next h hwaits) (by simp) (by simp) hstep)
    | true =>
      obtain ⟨pc, rest, hstack, hnext⟩ := next_of_waits hwaits
      simp only [State.step, hnext] at hstep
      cases hstep

end Stay

theorem listening_main {argv1 argv2 : Str} {s : State} (h : main argv1 argv2 = some s) : Listening s.stack := by
  obtain ⟨-, rfl⟩ := main_eq_some h
  refine listening_cons (fun sig => Frame.noConfusion) ?_ (.singleton _)
  intro g hg sig heq
  rw [heq] at hg
  cases hg

end UnixTasks.Daemon
