import UnixTasks.Daemon.Machine

/-!
# Source paths and backup paths

Whatever the system answers, the two paths that the daemon keeps together are the two paths of its arguments followed by
one and the same text: in the tables, in the calls of `monitor_directory` that are running, and so in every copy and in
every directory that it makes.

* (`Next.Always`, `step_of_always`) a property that every answer leads to;
* (`Moves`, `moves_next`) what the innermost function can do;
* (`Shape`) what runs below a waiting `monitor_events`: nothing that holds a path or an event;
* (`Inv`, `inv_step`) the invariant, and `paths_paired`.
-/

namespace UnixTasks.Daemon

open ActionSystem CChar

/-- Every answer leads to a state with `Q`, if the events that are read carry descriptors of `issued`. -/
def Next.Always (issued : List Nat) (Q : State → Prop) : Next State → Prop
  | .opendir _ k => ∀ ok, Q (k ok)
  | .mkdir _ k | .copy _ _ k | .goto k => Q k
  | .addWatch _ k => ∀ wd, Q (k wd)
  | .readdir _ k => ∀ es, Q (k es)
  | .read k => ∀ evs, (∀ e ∈ Option.getD evs [], e.wd ∈ issued) → Q (k evs)
  | .exit => True

/-- A step that is neither a request nor the start of a handler is an answer. -/
theorem answer_of_always {s s' : State} {a : Action} {Q : State → Prop} (h : s.next.Always s.issued Q)
    (hrequest : ∀ sig dir, a ≠ .request sig dir) (hhandle : ∀ sig, a ≠ .handle sig) (hstep : s.step a = some s') :
    Q s' := by
  cases a with
  | request sig dir => exact absurd rfl (hrequest sig dir)
  | handle sig => exact absurd rfl (hhandle sig)
  | read evs =>
    simp only [State.step] at hstep
    split at hstep
    · rename_i k hk
      rw [hk] at h
      split at hstep
      · rename_i hevs
        obtain rfl := Option.some.inj hstep
        exact h evs hevs
      · cases hstep
    · cases hstep
  | opendir x | addWatch x | readdir x =>
    simp only [State.step] at hstep
    split at hstep
    · rename_i k hk
      rw [hk] at h
      obtain rfl := Option.some.inj hstep
      exact h x
    · cases hstep
  | tau =>
    simp only [State.step] at hstep
    split at hstep
    · rename_i k hk
      rw [hk] at h
      obtain rfl := Option.some.inj hstep
      exact h
    · rename_i k hk
      rw [hk] at h
      obtain rfl := Option.some.inj hstep
      exact h
    · rename_i k hk
      rw [hk] at h
      obtain rfl := Option.some.inj hstep
      exact h
    · cases hstep

/-- A step is an answer, a request or the start of a handler. -/
theorem step_of_always {s s' : State} {a : Action} {Q : State → Prop} (h : s.next.Always s.issued Q)
    (hrequest : ∀ sig dir, Q (s.request sig dir)) (hhandle : ∀ sig s', s.handle sig = some s' → Q s')
    (hstep : s.step a = some s') : Q s' := by
  cases a with
  | request sig dir =>
    simp only [State.step] at hstep
    split at hstep
    · obtain rfl := Option.some.inj hstep
      exact hrequest sig dir
    · cases hstep
  | handle sig => exact hhandle sig s' hstep
  | tau | opendir | addWatch | readdir | read => exact answer_of_always h (by simp) (by simp) hstep

theorem Next.Always.mono {issued : List Nat} {Q R : State → Prop} {next : Next State} (h : next.Always issued Q)
    (hQR : ∀ s, Q s → R s) : next.Always issued R := by
  cases next with
  | opendir path k => exact fun ok => hQR _ (h ok)
  | mkdir path k => exact hQR _ h
  | addWatch path k => exact fun wd => hQR _ (h wd)
  | readdir path k => exact fun es => hQR _ (h es)
  | copy path11 path22 k => exact hQR _ h
  | read k => exact fun evs hevs => hQR _ (h evs hevs)
  | goto k => exact hQR _ h
  | exit => trivial

/-! ### What the innermost function does -/

/-- Where an answer leads: the innermost function returns, goes on, or calls another one. -/
inductive Moves (s : State) : State → Prop
  | scanReturns {path1 path2 : Str} {pc : ScanPc} {rest : List Frame}
      (hstack : s.stack = .scan path1 path2 pc :: rest) : Moves s { s with stack := rest }
  | scanGoes {path1 path2 : Str} {pc : ScanPc} {rest : List Frame} (hstack : s.stack = .scan path1 path2 pc :: rest)
      (pc' : ScanPc) : Moves s { s with stack := .scan path1 path2 pc' :: rest }
  | scanWatches {path1 path2 : Str} {rest : List Frame} (hstack : s.stack = .scan path1 path2 .watch :: rest)
      (wd : Option Nat) :
      Moves s { s.addInotify path1 path2 wd with stack := .scan path1 path2 .readdir :: rest }
  | scanCalls {path1 path2 : Str} {pc : ScanPc} {rest : List Frame} (hstack : s.stack = .scan path1 path2 pc :: rest)
      (name : Str) (pc' : ScanPc) :
      Moves s { s with stack := .scan (join path1 name) (join path2 name) .start :: .scan path1 path2 pc' :: rest }
  | eventsReturns {pc : EventPc} {rest : List Frame} (hstack : s.stack = .events [] pc :: rest) :
      Moves s { s with stack := rest }
  | eventsGoes {evs evs' : List Event} {pc : EventPc} {rest : List Frame} (hstack : s.stack = .events evs pc :: rest)
      (hevs' : ∀ e ∈ evs', e ∈ evs ∨ e.wd ∈ s.issued) (pc' : EventPc) :
      Moves s { s with stack := .events evs' pc' :: rest }
  | eventsCalls {e : Event} {es evs' : List Event} {pc : EventPc} {rest : List Frame} {path1 path2 : Str}
      (hstack : s.stack = .events (e :: es) pc :: rest) (hpath1 : s.wds e.wd = some path1)
      (hpath2 : s.backs e.wd = some path2) (hevs' : evs' ⊆ e :: es) (pc' : EventPc) :
      Moves s { s with stack := .scan (join path1 e.name) (join path2 e.name) .start :: .events evs' pc' :: rest }
  | callerListens {sig : Option SigNo} {rest : List Frame} (hstack : s.stack = .caller sig false :: rest) :
      Moves s { s with stack := .events [] .check :: .caller sig true :: rest }
  | callerReturns {sig : Option SigNo} {rest : List Frame} (hstack : s.stack = .caller sig true :: rest) :
      Moves s { s with stack := rest }

section Moves

variable {s : State}

private theorem moves_monitorDirectory {path1 path2 : Str} {pc : ScanPc} {rest : List Frame}
    (hstack : s.stack = .scan path1 path2 pc :: rest) :
    (s.monitorDirectory path1 path2 pc rest).Always s.issued (Moves s) := by
  have hgoto : ∀ pc', Moves s { s with stack := .scan path1 path2 pc' :: rest } := Moves.scanGoes hstack
  cases pc with
  | start =>
    simp only [State.monitorDirectory]
    split
    · exact .scanReturns hstack
    · intro ok
      cases ok
      · exact .scanReturns hstack
      · exact hgoto .mkdir
  | mkdir => exact hgoto .watch
  | watch => exact Moves.scanWatches hstack
  | readdir => exact fun es => hgoto (.entries es)
  | entries es =>
    cases es with
    | nil => exact .scanReturns hstack
    | cons e es =>
      simp only [State.monitorDirectory]
      split
      · exact hgoto (.entries es)
      · split
        · exact .scanCalls hstack e.name (.entries es)
        · exact hgoto (.entries es)

private theorem moves_monitorEvents {evs : List Event} {pc : EventPc} {rest : List Frame}
    (hstack : s.stack = .events evs pc :: rest) : (s.monitorEvents evs pc rest).Always s.issued (Moves s) := by
  cases evs with
  | nil =>
    intro evs' hevs'
    cases evs' with
    | none => exact .eventsReturns hstack
    | some evs' => exact .eventsGoes hstack (fun e he => .inr (hevs' e he)) .check
  | cons e es =>
    -- the function goes on with the same event, or with the next one
    have hsame : ∀ pc', Moves s { s with stack := .events (e :: es) pc' :: rest } :=
      Moves.eventsGoes hstack fun e he => .inl he
    have hnext : Moves s { s with stack := .events es .check :: rest } :=
      .eventsGoes hstack (fun e he => .inl (List.mem_cons_of_mem _ he)) .check
    simp only [State.monitorEvents]
    split
    · rename_i path1 path2 hpath1 hpath2
      cases pc with
      | check =>
        simp only
        split
        · exact hnext
        · exact hsame .create
      | create =>
        simp only
        split
        · intro ok
          cases ok
          · exact hsame .createCopy
          · exact .eventsCalls hstack hpath1 hpath2 (List.Subset.refl _) .modify
        · exact hsame .modify
      | createCopy => exact hsame .modify
      | modify =>
        simp only
        split
        · exact hsame .movedTo
        · exact hsame .movedTo
      | movedTo =>
        simp only
        split
        · intro ok
          cases ok
          · exact hsame .movedCopy
          · exact .eventsCalls hstack hpath1 hpath2 (List.subset_cons_self ..) .check
        · exact hnext
      | movedCopy => exact hnext
    · trivial

/-- Every step that is an answer is one of these. -/
theorem moves_next (s : State) : s.next.Always s.issued (Moves s) := by
  unfold State.next
  split
  · trivial
  · rename_i path1 path2 pc rest hstack
    exact moves_monitorDirectory hstack
  · rename_i evs pc rest hstack
    exact moves_monitorEvents hstack
  · rename_i sig rest hstack
    exact .callerListens hstack
  · rename_i sig rest hstack
    exact .callerReturns hstack

end Moves

/-! ### The invariant -/

/-- The same text after the source path and after the backup path. -/
def Paired (s : State) (path1 path2 : Str) : Prop :=
  ∃ suffix, path1 = s.pathArgv1 ++ suffix ∧ path2 = s.pathArgv2 ++ suffix

theorem Paired.join {s : State} {path1 path2 : Str} (h : Paired s path1 path2) (name : Str) :
    Paired s (join path1 name) (join path2 name) := by
  obtain ⟨suffix, rfl, rfl⟩ := h
  exact ⟨Daemon.join suffix name, by simp [Daemon.join], by simp [Daemon.join]⟩

/-- A function that holds neither a path nor an event. -/
def Frame.Settled : Frame → Prop
  | .scan .. => False
  | .events evs _ => evs = []
  | .caller .. => True

/-- Below the innermost `monitor_events` and below `main` and the handlers everything is settled. -/
def Shape : List Frame → Prop
  | [] => True
  | .scan .. :: rest => Shape rest
  | _ :: rest => ∀ f ∈ rest, f.Settled

private theorem Shape.of_settled {stack : List Frame} (h : ∀ f ∈ stack, f.Settled) : Shape stack := by
  cases stack with
  | nil => trivial
  | cons f rest =>
    have hrest : ∀ g ∈ rest, g.Settled := fun g hg => h g (List.mem_cons_of_mem _ hg)
    cases f with
    | scan => exact absurd (h _ (List.mem_cons_self ..)) id
    | events | caller => exact hrest

/-- The paths of a function that is running belong together, and its events are of the current instance. -/
def Frame.Ok (s : State) : Frame → Prop
  | .scan path1 path2 _ => Paired s path1 path2
  | .events evs _ => ∀ e ∈ evs, e.wd ∈ s.issued
  | .caller .. => True

theorem Frame.Settled.ok {f : Frame} (h : f.Settled) (s : State) : f.Ok s := by
  cases f with
  | scan => exact absurd h id
  | events evs pc =>
    obtain rfl : evs = [] := h
    intro e he
    cases he
  | caller => trivial

structure Inv (s : State) : Prop where
  tables (wd : Nat) (h : wd ∈ s.issued) :
    ∃ path1 path2, s.wds wd = some path1 ∧ s.backs wd = some path2 ∧ Paired s path1 path2
  frames (f : Frame) (h : f ∈ s.stack) : f.Ok s
  shape : Shape s.stack

/-- A step that replaces the call stack and nothing else. -/
private theorem Inv.of_stack {s : State} {stack : List Frame} (h : Inv s) (hframes : ∀ f ∈ stack, f.Ok s)
    (hshape : Shape stack) : Inv { s with stack := stack } :=
  ⟨h.tables, fun f hf => by have hok := hframes f hf; cases f <;> exact hok, hshape⟩

theorem inv_main {argv1 argv2 : Str} {s : State} (h : main argv1 argv2 = some s) : Inv s := by
  obtain ⟨-, rfl⟩ := main_eq_some h
  refine ⟨by simp, ?_, by simp [Shape]⟩
  intro f hf
  rcases List.mem_pair.1 hf with rfl | rfl
  · exact ⟨[], by simp, by simp⟩
  · trivial

section Step

variable {s : State}

private theorem addInotify_stack (path1 path2 : Str) (wd : Option Nat) :
    (s.addInotify path1 path2 wd).stack = s.stack := by
  cases wd <;> rfl

private theorem inv_addInotify {path1 path2 : Str} (h : Inv s) (hpaired : Paired s path1 path2) (wd : Option Nat) :
    Inv (s.addInotify path1 path2 wd) := by
  cases wd with
  | none => exact h
  | some wd =>
    refine ⟨?_, ?_, h.shape⟩
    · intro wd' hwd'
      by_cases heq : wd' = wd
      · subst heq
        exact ⟨path1, path2, by simp [State.addInotify], by simp [State.addInotify], hpaired⟩
      · have hissued : wd' ∈ s.issued := (List.mem_cons.1 hwd').resolve_left heq
        obtain ⟨p1, p2, hp1, hp2, hp⟩ := h.tables wd' hissued
        refine ⟨p1, p2, ?_, ?_, hp⟩
        · simpa [State.addInotify, heq] using hp1
        · simpa [State.addInotify, heq] using hp2
    · intro f hf
      have hok := h.frames f hf
      cases f with
      | scan | caller => exact hok
      | events evs pc => exact fun e he => List.mem_cons_of_mem _ (hok e he)

private theorem Moves.inv {s' : State} (hm : Moves s s') (h : Inv s) : Inv s' := by
  have hframes := h.frames
  have hshape := h.shape
  cases hm with
  | scanReturns hstack =>
    rw [hstack, List.forall_mem_cons] at hframes
    rw [hstack] at hshape
    exact h.of_stack hframes.2 hshape
  | scanGoes hstack pc' =>
    rw [hstack, List.forall_mem_cons] at hframes
    rw [hstack] at hshape
    exact h.of_stack (List.forall_mem_cons.2 hframes) hshape
  | scanWatches hstack wd =>
    rw [hstack, List.forall_mem_cons] at hframes
    rw [hstack] at hshape
    have hadd := inv_addInotify h hframes.1 wd
    have hframes' := hadd.frames
    rw [addInotify_stack, hstack, List.forall_mem_cons] at hframes'
    exact hadd.of_stack (List.forall_mem_cons.2 hframes') hshape
  | scanCalls hstack name pc' =>
    rw [hstack, List.forall_mem_cons] at hframes
    rw [hstack] at hshape
    obtain ⟨hpaired, hrest⟩ := hframes
    have hcall : Paired s _ _ := Paired.join hpaired name
    exact h.of_stack (List.forall_mem_cons.2 ⟨hcall, List.forall_mem_cons.2 ⟨hpaired, hrest⟩⟩) hshape
  | eventsReturns hstack =>
    rw [hstack] at hshape
    exact h.of_stack (fun f hf => (hshape f hf).ok s) (Shape.of_settled hshape)
  | eventsGoes hstack hevs' pc' =>
    rw [hstack, List.forall_mem_cons] at hframes
    rw [hstack] at hshape
    obtain ⟨hevs, hrest⟩ := hframes
    refine h.of_stack (List.forall_mem_cons.2 ⟨fun e he => ?_, hrest⟩) hshape
    rcases hevs' e he with he | he
    · exact hevs e he
    · exact he
  | eventsCalls hstack hpath1 hpath2 hevs' pc' =>
    rename_i e es evs' pc rest path1 path2
    rw [hstack, List.forall_mem_cons] at hframes
    rw [hstack] at hshape
    obtain ⟨hevs, hrest⟩ := hframes
    obtain ⟨p1, p2, hp1, hp2, hpaired⟩ := h.tables e.wd (hevs e (List.mem_cons_self ..))
    obtain rfl : p1 = path1 := Option.some.inj (hp1.symm.trans hpath1)
    obtain rfl : p2 = path2 := Option.some.inj (hp2.symm.trans hpath2)
    have hok : Frame.Ok s (.events evs' pc') := fun e' he' => hevs e' (hevs' he')
    exact h.of_stack (List.forall_mem_cons.2 ⟨hpaired.join e.name, List.forall_mem_cons.2 ⟨hok, hrest⟩⟩) hshape
  | callerListens hstack =>
    rename_i sig rest
    rw [hstack] at hshape
    have hall : ∀ f ∈ .caller sig true :: rest, Frame.Settled f := List.forall_mem_cons.2 ⟨trivial, hshape⟩
    refine h.of_stack (List.forall_mem_cons.2 ⟨?_, fun f hf => (hall f hf).ok s⟩) hall
    intro e he
    cases he
  | callerReturns hstack =>
    rw [hstack] at hshape
    exact h.of_stack (fun f hf => (hshape f hf).ok s) (Shape.of_settled hshape)

private theorem inv_next (h : Inv s) : s.next.Always s.issued Inv := (moves_next s).mono fun _ hm => hm.inv h

/-- While the daemon waits, all functions that are running are settled. -/
theorem settled_of_waits (h : Inv s) (hwaits : s.waits = true) : ∀ f ∈ s.stack, f.Settled := by
  unfold State.waits at hwaits
  split at hwaits
  · rename_i pc rest hstack
    have hshape := h.shape
    rw [hstack] at hshape ⊢
    exact List.forall_mem_cons.2 ⟨rfl, hshape⟩
  · cases hwaits

/-- A handler starts with new paths, a new instance and no descriptor. -/
theorem inv_handle {sig : SigNo} {s' : State} (h : Inv s) (hstep : s.handle sig = some s') : Inv s' := by
  obtain ⟨⟨hwaits, -⟩, dir, -, rfl⟩ := handle_eq_some hstep
  have hsettled := settled_of_waits h hwaits
  refine ⟨by simp, ?_, hsettled⟩
  intro f hf
  rcases List.mem_cons.1 hf with rfl | hf
  · exact ⟨[], by simp, by simp⟩
  · rcases List.mem_cons.1 hf with rfl | hf
    · trivial
    · exact (hsettled f hf).ok _

theorem inv_step {s' : State} {a : Action} (h : Inv s) (hstep : s.step a = some s') : Inv s' := by
  refine step_of_always (inv_next h) (fun sig dir => ?_) (fun sig s' => inv_handle h) hstep
  exact ⟨h.tables, fun f hf => by have hok := h.frames f hf; cases f <;> exact hok, h.shape⟩

end Step

theorem inv_of_reachable {argv1 argv2 : Str} {s₀ s : State} (h₀ : main argv1 argv2 = some s₀)
    (h : Reachable State.step s₀ s) : Inv s :=
  h.invariant (fun _ _ _ hinv hstep => inv_step hinv hstep) (inv_main h₀)

/-! ### The calls that are made -/

section Calls

variable {s : State}

/-- A copy is of an entry of the directory that is scanned, or of the file that an event names. -/
theorem copy_cases {path11 path22 : Str} {k : State} (hnext : s.next = .copy path11 path22 k) :
    (∃ path1 path2 e es rest, s.stack = .scan path1 path2 (.entries (e :: es)) :: rest ∧
      path11 = join path1 e.name ∧ path22 = join path2 e.name) ∨
    ∃ e es pc rest path1 path2, s.stack = .events (e :: es) pc :: rest ∧ s.wds e.wd = some path1 ∧
      s.backs e.wd = some path2 ∧ path11 = join path1 e.name ∧ path22 = join path2 e.name := by
  unfold State.next at hnext
  split at hnext
  · cases hnext
  · rename_i path1 path2 pc rest hstack
    left
    unfold State.monitorDirectory at hnext
    split at hnext
    · split at hnext <;> cases hnext
    · cases hnext
    · cases hnext
    · cases hnext
    · cases hnext
    · rename_i e es
      split at hnext
      · cases hnext
      · split at hnext
        · cases hnext
        · cases hnext
          exact ⟨path1, path2, e, es, rest, hstack, rfl, rfl⟩
  · rename_i evs pc rest hstack
    right
    unfold State.monitorEvents at hnext
    split at hnext
    · cases hnext
    · rename_i e es
      split at hnext
      · rename_i path1 path2 hpath1 hpath2
        have hpaths : path11 = join path1 e.name ∧ path22 = join path2 e.name := by
          cases pc with
          | createCopy | movedCopy => cases hnext; exact ⟨rfl, rfl⟩
          | modify =>
            simp only at hnext
            split at hnext
            · cases hnext; exact ⟨rfl, rfl⟩
            · cases hnext
          | check => cases hnext
          | create | movedTo =>
            simp only at hnext
            split at hnext <;> cases hnext
        exact ⟨e, es, pc, rest, path1, path2, hstack, hpath1, hpath2, hpaths⟩
      · cases hnext
  · cases hnext
  · cases hnext

/-- `monitor_events` makes no directory and no watch by itself. -/
private theorem monitorEvents_calls (s : State) (evs : List Event) (pc : EventPc) (rest : List Frame) :
    (∀ path k, s.monitorEvents evs pc rest ≠ .mkdir path k) ∧
      ∀ path k, s.monitorEvents evs pc rest ≠ .addWatch path k := by
  unfold State.monitorEvents
  split
  · simp
  · split
    · cases pc with
      | check | createCopy | movedCopy => simp
      | create | modify | movedTo =>
        simp only
        split <;> simp
    · simp

/-- A directory is made for the one that is scanned. -/
private theorem mkdir_cases {path22 : Str} {k : State} (hnext : s.next = .mkdir path22 k) :
    ∃ path11 rest, s.stack = .scan path11 path22 .mkdir :: rest := by
  unfold State.next at hnext
  split at hnext
  · cases hnext
  · rename_i path1 path2 pc rest hstack
    unfold State.monitorDirectory at hnext
    split at hnext
    · split at hnext <;> cases hnext
    · cases hnext
      exact ⟨path1, rest, hstack⟩
    · cases hnext
    · cases hnext
    · cases hnext
    · split at hnext
      · cases hnext
      · split at hnext <;> cases hnext
  · exact absurd hnext ((monitorEvents_calls s _ _ _).1 path22 k)
  · cases hnext
  · cases hnext

/-- The directory that is scanned is watched. -/
theorem addWatch_cases {path11 : Str} {k : Option Nat → State} (hnext : s.next = .addWatch path11 k) :
    ∃ path22 rest, s.stack = .scan path11 path22 .watch :: rest ∧
      ∀ wd, k wd = { s.addInotify path11 path22 wd with stack := .scan path11 path22 .readdir :: rest } := by
  unfold State.next at hnext
  split at hnext
  · cases hnext
  · rename_i path1 path2 pc rest hstack
    unfold State.monitorDirectory at hnext
    split at hnext
    · split at hnext <;> cases hnext
    · cases hnext
    · cases hnext
      exact ⟨path2, rest, hstack, fun _ => rfl⟩
    · cases hnext
    · cases hnext
    · split at hnext
      · cases hnext
      · split at hnext <;> cases hnext
  · exact absurd hnext ((monitorEvents_calls s _ _ _).2 path11 k)
  · cases hnext
  · cases hnext

end Calls

/-- In every run, whatever the system answers and whenever the two directories are changed: the two entries of a
descriptor of the current instance are the two paths with one suffix, and so are the two paths of every copy, and the
directory that is scanned and the one that is made for it. -/
theorem paths_paired {argv1 argv2 : Str} {s₀ s : State} (h₀ : main argv1 argv2 = some s₀)
    (h : Reachable State.step s₀ s) :
    (∀ wd ∈ s.issued, ∃ suffix,
      s.wds wd = some (s.pathArgv1 ++ suffix) ∧ s.backs wd = some (s.pathArgv2 ++ suffix)) ∧
    (∀ path11 path22 k, s.next = .copy path11 path22 k → Paired s path11 path22) ∧
    ∀ path22 k, s.next = .mkdir path22 k →
      ∃ path11 rest, s.stack = .scan path11 path22 .mkdir :: rest ∧ Paired s path11 path22 := by
  have hinv := inv_of_reachable h₀ h
  refine ⟨fun wd hwd => ?_, fun path11 path22 k hnext => ?_, fun path22 k hnext => ?_⟩
  · obtain ⟨path1, path2, hpath1, hpath2, suffix, rfl, rfl⟩ := hinv.tables wd hwd
    exact ⟨suffix, hpath1, hpath2⟩
  · rcases copy_cases hnext with ⟨path1, path2, e, es, rest, hstack, rfl, rfl⟩ |
      ⟨e, es, pc, rest, path1, path2, hstack, hpath1, hpath2, rfl, rfl⟩
    · have hpaired : Paired s path1 path2 := hinv.frames (.scan path1 path2 (.entries (e :: es))) (by simp [hstack])
      exact hpaired.join e.name
    · have hevs := hinv.frames (.events (e :: es) pc) (by simp [hstack])
      obtain ⟨p1, p2, hp1, hp2, hpaired⟩ := hinv.tables e.wd (hevs e (List.mem_cons_self ..))
      rw [hp1] at hpath1
      rw [hp2] at hpath2
      obtain rfl := Option.some.inj hpath1
      obtain rfl := Option.some.inj hpath2
      exact hpaired.join e.name
  · obtain ⟨path11, rest, hstack⟩ := mkdir_cases hnext
    exact ⟨path11, rest, hstack, hinv.frames (.scan path11 path22 .mkdir) (by simp [hstack])⟩

/-- The daemon scans `a` into `b`, is told to change to `c`, and meets a new directory `a/d`. -/
theorem paths_paired_change_backup : ∃ s₀ s : State, main [chr 'a'] [chr 'b'] = some s₀ ∧
    Reachable State.step s₀ s ∧ s.issued = [2, 1] ∧ s.pathArgv2 = [chr 'c'] ∧
      ∃ suffix, s.wds 2 = some ([chr 'a'] ++ suffix) ∧ s.backs 2 = some ([chr 'c'] ++ suffix) := by
  let scan (wd : Nat) (es : List Entry) : List Action := [.opendir true, .tau, .addWatch (some wd), .readdir es]
  let created : Event := ⟨1, true, false, false, [chr 'd']⟩
  let actions : List Action := scan 1 [⟨[chr 'f'], false⟩] ++
    [.tau, .tau, .tau, .request .usr1 [chr 'c'], .handle .usr1] ++ scan 1 [] ++
    [.tau, .tau, .read (some [created]), .tau, .opendir true] ++ scan 2 []
  have hrun : ((main [chr 'a'] [chr 'b']).bind fun s₀ => (run State.step s₀ actions).map fun s =>
      (s.issued, s.pathArgv1, s.pathArgv2)) = some ([2, 1], [chr 'a'], [chr 'c']) := by
    decide
  obtain ⟨s₀, hmain, hrun⟩ := Option.bind_eq_some_iff.1 hrun
  obtain ⟨s, hs, hfields⟩ := Option.map_eq_some_iff.1 hrun
  simp only [Prod.mk.injEq] at hfields
  obtain ⟨hissued, hargv1, hargv2⟩ := hfields
  obtain ⟨htables, -, -⟩ := paths_paired hmain ⟨actions, hs⟩
  have htable := htables 2 (by simp [hissued])
  rw [hargv1, hargv2] at htable
  exact ⟨s₀, s, hmain, ⟨actions, hs⟩, hissued, hargv2, htable⟩

end UnixTasks.Daemon
