import UnixTasks.Daemon.Requests
import UnixTasks.Daemon.Table
import UnixTasks.Daemon.Buffers

/-!
# How the requests are delivered

A signal that arrives while the daemon waits in `read` is delivered before the daemon goes on.  Two signals are
delivered together: the frame of the second handler is set up on top of the first one, which would begin when the second
returns.  Neither ever returns, so the first one never begins.

* (`Process`) the daemon and the handlers that have been set up and have not begun;
* (`Timely`, `InMemory`) the requests that come in time, and the steps that stay in the memory of the daemon;
* (`requests_served`) in a run of such steps a daemon that waits has no request pending and the paths of the last ones;
* (`request_lost`) after any other request there is always one that is not served.
-/

namespace UnixTasks.Daemon

open ActionSystem CChar

/-- The daemon, and the signals whose handlers have been set up below another one and have not begun. -/
structure Process where
  daemon : State
  outer : List SigNo

namespace Process

/-- A step of the daemon or a request, with the member `len` of the event that is handled; or the delivery of all
signals that can be delivered, with the one whose handler is set up last. -/
inductive Turn where
  | step (a : Action) (len : Nat)
  | deliver (sig : SigNo)
  deriving DecidableEq, Repr

/-- The action of the daemon: of the handlers only the last one begins. -/
def Turn.action : Turn → Action
  | .step a _ => a
  | .deliver sig => .handle sig

/-- The pending signals that are not blocked. -/
def deliverable (p : Process) : List SigNo :=
  p.daemon.pending.filter fun sig => sig ∉ p.daemon.handlers ∧ sig ∉ p.outer

/-- The daemon goes on when all signals have been delivered.  A `read` on inotify never returns 0. -/
def Allows (p : Process) : Action → Prop
  | .handle _ | .read none => False
  | .request _ _ => True
  | .tau | .opendir _ | .addWatch _ | .readdir _ | .read (some _) => p.deliverable = []

instance (p : Process) : (a : Action) → Decidable (p.Allows a)
  | .handle _ | .read none => inferInstanceAs (Decidable False)
  | .request _ _ => inferInstanceAs (Decidable True)
  | .tau | .opendir _ | .addWatch _ | .readdir _ | .read (some _) => inferInstanceAs (Decidable (_ = _))

def step (p : Process) : Turn → Option Process
  | .step a _ => if p.Allows a then (p.daemon.step a).map (⟨·, p.outer⟩) else none
  | .deliver sig =>
    if sig ∈ p.deliverable then
      (p.daemon.handle sig).map fun d =>
        ⟨{ d with pending := d.pending.filter fun other => other ∉ p.deliverable },
          p.deliverable.filter (fun other => other ≠ sig) ++ p.outer⟩
    else none

/-- A request comes while the handler of its signal has not been set up and no other request is pending. -/
def Timely (p : Process) : Turn → Prop
  | .step (.request sig _) _ =>
    (sig ∉ p.daemon.handlers ∧ sig ∉ p.outer) ∧ ∀ other ∈ p.daemon.pending, other = sig
  | _ => True

/-- The step stays in the two tables and in the buffers for the paths, and a path that is requested fits the buffer of
the path that it replaces. -/
def InMemory (p : Process) : Turn → Prop
  | .step (.request _ dir) _ => dir.length < argvSize
  | .step a len => InTable p.daemon a ∧ BuffersFit p.daemon (a, len)
  | .deliver _ => True

instance (p : Process) : (x : Turn) → Decidable (p.Timely x)
  | .step (.request _ _) _ => inferInstanceAs (Decidable ((_ ∧ _) ∧ ∀ other ∈ p.daemon.pending, other = _))
  | .step .tau _ | .step (.opendir _) _ | .step (.addWatch _) _ | .step (.readdir _) _ | .step (.read _) _
  | .step (.handle _) _ | .deliver _ => inferInstanceAs (Decidable True)

instance (s : State) (a : Action) : Decidable (InTable s a) := inferInstanceAs (Decidable (∀ i ∈ s.tableIndex a, _))

instance (p : Process) : (x : Turn) → Decidable (p.InMemory x)
  | .step (.request _ _) _ => inferInstanceAs (Decidable (_ < _))
  | .step .tau _ | .step (.opendir _) _ | .step (.addWatch _) _ | .step (.readdir _) _ | .step (.read _) _
  | .step (.handle _) _ => inferInstanceAs (Decidable (_ ∧ _))
  | .deliver _ => inferInstanceAs (Decidable True)

/-- The path that the requests of a run have asked for last, `dir` if none has. -/
def lastRequested (sig : SigNo) (dir : Str) (xs : List Turn) : Str := requested sig dir (xs.map Turn.action)

section Steps

variable {p q : Process} {a : Action} {len : Nat} {sig : SigNo}

private theorem mem_deliverable :
    sig ∈ p.deliverable ↔ sig ∈ p.daemon.pending ∧ sig ∉ p.daemon.handlers ∧ sig ∉ p.outer := by
  rw [deliverable, List.mem_filter, decide_eq_true_eq]

theorem step_eq_some (h : p.step (.step a len) = some q) :
    p.Allows a ∧ p.daemon.step a = some q.daemon ∧ q.outer = p.outer := by
  simp only [step] at h
  split at h
  · rename_i hallows
    obtain ⟨d, hd, rfl⟩ := Option.map_eq_some_iff.1 h
    exact ⟨hallows, hd, rfl⟩
  · cases h

private theorem deliver_eq_some (h : p.step (.deliver sig) = some q) :
    sig ∈ p.deliverable ∧ ∃ d, p.daemon.handle sig = some d ∧
      q.daemon = { d with pending := d.pending.filter fun other => other ∉ p.deliverable } ∧
      q.outer = p.deliverable.filter (fun other => other ≠ sig) ++ p.outer := by
  simp only [step] at h
  split at h
  · rename_i hmem
    obtain ⟨d, hd, rfl⟩ := Option.map_eq_some_iff.1 h
    exact ⟨hmem, d, hd, rfl, rfl⟩
  · cases h

private theorem Allows.ne_read (h : p.Allows a) : a ≠ .read none := by
  rintro rfl
  exact h

/-! ### Requests in time -/

/-- No handler is set up below another one, at most one request is pending, and its handler is not running. -/
structure InTime (p : Process) : Prop where
  outer : p.outer = []
  served : Served p.daemon
  single : ∀ sig ∈ p.daemon.pending, ∀ other ∈ p.daemon.pending, sig = other

/-- A signal is delivered alone. -/
theorem InTime.deliver (h : p.InTime) (hstep : p.step (.deliver sig) = some q) :
    p.daemon.handle sig = some q.daemon ∧ q.InTime := by
  obtain ⟨hmem, d, hd, hdaemon, houter⟩ := deliver_eq_some hstep
  obtain ⟨-, -, hpending, hnil, -⟩ := handle_eq hd
  have hsingle : ∀ other ∈ p.daemon.pending, other = sig :=
    fun other hother => h.single other hother sig (mem_deliverable.1 hmem).1
  have hnil : d.pending = [] := by
    rw [hnil, List.filter_eq_nil_iff]
    intro other hother
    rw [hsingle other hother]
    simp
  have hsame : q.daemon = d := by
    rw [hdaemon]
    cases d
    subst hnil
    rfl
  rw [hsame]
  refine ⟨hd, ?_, hsame ▸ served_handle h.served hd, ?_⟩
  · rw [houter, h.outer, List.append_nil, List.filter_eq_nil_iff]
    intro other hother
    rw [hsingle other (mem_deliverable.1 hother).1]
    simp
  · intro other hother
    rw [hsame, hnil] at hother
    cases hother

/-- A step is one of the daemon in which no request comes too late. -/
theorem InTime.step {x : Turn} (h : p.InTime) (hx : p.Timely x) (hstep : p.step x = some q) :
    p.daemon.step x.action = some q.daemon ∧ Unblocked p.daemon x.action ∧ q.InTime := by
  cases x with
  | deliver sig =>
    obtain ⟨hhandle, hq⟩ := h.deliver hstep
    exact ⟨hhandle, trivial, hq⟩
  | step a len =>
    obtain ⟨hallows, hdaemon, houter⟩ := step_eq_some hstep
    have hblock : Unblocked p.daemon a := by
      cases a with
      | request sig dir => exact hx.1.1
      | tau | opendir | addWatch | readdir | read | handle => trivial
    refine ⟨hdaemon, hblock, houter.trans h.outer, (served_step h.served hblock hdaemon).1, ?_⟩
    cases a with
    | request sig dir =>
      have hpending : ∀ other ∈ q.daemon.pending, other = sig := by
        intro other hother
        rw [request_eq hdaemon, mem_pending_request] at hother
        exact hother.elim id (hx.2 other)
      exact fun sig₁ h₁ sig₂ h₂ => (hpending sig₁ h₁).trans (hpending sig₂ h₂).symm
    | handle sig => exact absurd hallows id
    | tau | opendir | addWatch | readdir | read =>
      have hkeeps : Keeps p.daemon q.daemon := answer_of_always (keeps_next _) (by simp) (by simp) hdaemon
      rw [hkeeps.pending]
      exact h.single

theorem InTime.run {xs : List Turn} (h : p.InTime) (hgood : AllSteps Process.step Timely p xs)
    (hrun : run Process.step p xs = some q) :
    q.InTime ∧ ∀ sig, q.daemon.target sig = lastRequested sig (p.daemon.target sig) xs := by
  induction xs generalizing p with
  | nil =>
    obtain rfl : p = q := Option.some.inj hrun
    exact ⟨h, fun sig => rfl⟩
  | cons x xs ih =>
    obtain ⟨u, hu, hrun⟩ := run_cons_eq_some.1 hrun
    obtain ⟨hx, hgood⟩ := (allSteps_cons hu).1 hgood
    obtain ⟨hdaemon, hblock, hinTime⟩ := h.step hx hu
    obtain ⟨hq, htarget⟩ := ih hinTime hgood hrun
    refine ⟨hq, fun sig => ?_⟩
    rw [htarget sig]
    exact (served_step h.served hblock hdaemon).2 sig _

/-- When no signal can be delivered, none is pending. -/
private theorem InTime.pending_eq_nil (h : p.InTime) (hidle : p.deliverable = []) : p.daemon.pending = [] := by
  rw [List.eq_nil_iff_forall_not_mem]
  intro sig hsig
  have hmem : sig ∈ p.deliverable := by
    refine mem_deliverable.2 ⟨hsig, (h.served sig hsig).2, ?_⟩
    rw [h.outer]
    exact List.not_mem_nil
  rw [hidle] at hmem
  cases hmem

end Steps

end Process

open Process

/-- In every run whose requests come in time and whose steps stay in the memory of the daemon: whenever all signals have
been delivered, no request is pending, every handler has begun, and the two paths are the ones that have been requested
last. -/
theorem requests_served {argv1 argv2 : Str} {s₀ : State} {p : Process} {xs : List Turn}
    (h₀ : boundedMain argv1 argv2 = some s₀)
    (hgood : AllSteps Process.step (fun p x => p.Timely x ∧ p.InMemory x) ⟨s₀, []⟩ xs)
    (hrun : run Process.step ⟨s₀, []⟩ xs = some p) (hidle : p.deliverable = []) :
    (p.daemon.pending = [] ∧ p.outer = []) ∧ p.daemon.pathArgv1 = lastRequested .usr2 argv1 xs ∧
      p.daemon.pathArgv2 = lastRequested .usr1 argv2 xs := by
  have hmain := (boundedMain_eq_some h₀).2
  obtain ⟨hserved₀, hargv2, hargv1⟩ := served_main hmain
  have hinTime₀ : InTime ⟨s₀, []⟩ := by
    refine ⟨rfl, hserved₀, fun sig hsig => ?_⟩
    obtain ⟨-, rfl⟩ := main_eq_some hmain
    cases hsig
  obtain ⟨hinTime, htarget⟩ := hinTime₀.run (allSteps_and.1 hgood).1 hrun
  have hnil := hinTime.pending_eq_nil hidle
  have hpath : ∀ sig, p.daemon.path sig = lastRequested sig (s₀.target sig) xs := by
    intro sig
    rw [← htarget sig, State.target, hnil, if_neg List.not_mem_nil]
  refine ⟨⟨hnil, hinTime.outer⟩, ?_, ?_⟩
  · have h := hpath .usr2
    rwa [hargv1] at h
  · have h := hpath .usr1
    rwa [hargv2] at h

/-- The daemon scans `a` into `b` and is told to change the backup directory to `c` and the working directory to `d`,
neither of which it can open. -/
theorem requests_served_both : ∃ (s₀ : State) (xs : List Turn) (p : Process),
    boundedMain [chr 'a'] [chr 'b'] = some s₀ ∧ run Process.step ⟨s₀, []⟩ xs = some p ∧
      p.daemon.handlers = [.usr2, .usr1] ∧ (p.daemon.pending = [] ∧ p.outer = []) ∧
      p.daemon.pathArgv1 = [chr 'd'] ∧ p.daemon.pathArgv2 = [chr 'c'] := by
  let turns : List Turn := [.step (.opendir false) 0, .step .tau 0, .step (.request .usr1 [chr 'c']) 0,
    .deliver .usr1, .step (.opendir false) 0, .step .tau 0, .step (.request .usr2 [chr 'd']) 0, .deliver .usr2,
    .step (.opendir false) 0, .step .tau 0]
  have hrun : ((boundedMain [chr 'a'] [chr 'b']).bind fun s₀ => (run Process.step ⟨s₀, []⟩ turns).map fun p =>
      (p.daemon.handlers, p.deliverable)) = some ([.usr2, .usr1], []) := by
    decide +kernel
  obtain ⟨s₀, hmain, hrun⟩ := Option.bind_eq_some_iff.1 hrun
  obtain ⟨p, hp, hfields⟩ := Option.map_eq_some_iff.1 hrun
  simp only [Prod.mk.injEq] at hfields
  obtain ⟨hhandlers, hidle⟩ := hfields
  have hgood : AllSteps Process.step (fun p x => p.Timely x ∧ p.InMemory x) ⟨s₀, []⟩ turns := by
    obtain rfl := Option.some.inj hmain
    decide +kernel
  obtain ⟨hnil, hargv1, hargv2⟩ := requests_served hmain hgood hp hidle
  exact ⟨s₀, turns, p, hmain, hp, hhandlers, hnil, hargv1, hargv2⟩

/-! ### Requests that come too late -/

namespace Process

/-- Some request will never be served: two signals are delivered together, or have been, or one is blocked for good. -/
inductive Doomed (p : Process) : Prop where
  | together {sig other : SigNo} (hsig : sig ∈ p.deliverable) (hother : other ∈ p.deliverable) (hne : other ≠ sig)
  | outer (h : p.outer ≠ [])
  | blocked {sig : SigNo} (hpending : sig ∈ p.daemon.pending) (hrunning : sig ∈ p.daemon.handlers)

theorem Doomed.idle {p : Process} (h : p.Doomed) (hidle : p.deliverable = []) :
    p.daemon.pending ≠ [] ∨ p.outer ≠ [] := by
  cases h with
  | together hsig =>
    rw [hidle] at hsig
    cases hsig
  | outer h => exact .inr h
  | blocked hpending => exact .inl (List.ne_nil_of_mem hpending)

/-- A request that comes too late. -/
theorem doomed_request {p q : Process} {sig : SigNo} {dir : Str} {len : Nat}
    (hlate : ¬ p.Timely (.step (.request sig dir) len)) (hstep : p.step (.step (.request sig dir) len) = some q) :
    q.Doomed := by
  obtain ⟨-, hdaemon, houter⟩ := step_eq_some hstep
  have hq := request_eq hdaemon
  have hhandlers : q.daemon.handlers = p.daemon.handlers := by
    rw [hq]
    rfl
  have hpending : ∀ other, other = sig ∨ other ∈ p.daemon.pending → other ∈ q.daemon.pending := by
    intro other hother
    rw [hq, mem_pending_request]
    exact hother
  have hout : p.outer ≠ [] → q.Doomed := fun h => .outer (houter ▸ h)
  by_cases hrunning : sig ∈ p.daemon.handlers
  · exact .blocked (hpending sig (.inl rfl)) (hhandlers ▸ hrunning)
  by_cases hnil : p.outer = []
  · have hother : ∃ other ∈ p.daemon.pending, other ≠ sig := by
      by_contra hnot
      apply hlate
      refine ⟨⟨hrunning, by rw [hnil]; exact List.not_mem_nil⟩, fun other hmem => ?_⟩
      by_contra hne
      exact hnot ⟨other, hmem, hne⟩
    obtain ⟨other, hmem, hne⟩ := hother
    by_cases hother : other ∈ p.daemon.handlers
    · exact .blocked (hpending other (.inr hmem)) (hhandlers ▸ hother)
    · have hdeliverable : ∀ k, k = sig ∨ k ∈ p.daemon.pending → k ∉ p.daemon.handlers → k ∈ q.deliverable := by
        intro k hk hnot
        rw [mem_deliverable, hhandlers, houter, hnil]
        exact ⟨hpending k hk, hnot, List.not_mem_nil⟩
      exact .together (hdeliverable sig (.inl rfl) hrunning) (hdeliverable other (.inr hmem) hother) hne
  · exact hout hnil

/-- No handler returns, so that it stays so. -/
theorem Doomed.step {p q : Process} {x : Turn} (h : p.Doomed) (hlistening : Listening p.daemon.stack)
    (hstep : p.step x = some q) : q.Doomed := by
  cases x with
  | step a len =>
    obtain ⟨hallows, hdaemon, houter⟩ := step_eq_some hstep
    cases h with
    | outer h => exact .outer (houter ▸ h)
    | @blocked sig hpending hrunning =>
      obtain ⟨-, hhandlers, hkept⟩ := stays_step sig hlistening (hallows.ne_read) hdaemon
      exact .blocked (hkept hrunning hpending) (hhandlers hrunning)
    | @together sig other hsig hother hne =>
      -- the daemon does not go on: this is one more request
      have hnil : p.deliverable ≠ [] := List.ne_nil_of_mem hsig
      cases a with
      | request sig' dir =>
        have hkept : ∀ k ∈ p.deliverable, k ∈ q.deliverable := by
          intro k hk
          rw [mem_deliverable] at hk ⊢
          rw [request_eq hdaemon, mem_pending_request, houter]
          exact ⟨.inr hk.1, hk.2⟩
        exact .together (hkept _ hsig) (hkept _ hother) hne
      | handle sig' => exact absurd hallows id
      | read evs =>
        cases evs with
        | none => exact absurd hallows id
        | some evs => exact absurd hallows hnil
      | tau | opendir | addWatch | readdir => exact absurd hallows hnil
  | deliver k =>
    obtain ⟨hk, d, hd, hdaemon, houter⟩ := deliver_eq_some hstep
    cases h with
    | outer h =>
      refine .outer ?_
      rw [houter]
      exact List.append_ne_nil_of_right_ne_nil _ h
    | @blocked sig hpending hrunning =>
      obtain ⟨-, hhandlers, hkept⟩ := stays_step sig (a := .handle k) hlistening (fun heq => Action.noConfusion heq) hd
      have hnot : sig ∉ p.deliverable := fun hmem => (mem_deliverable.1 hmem).2.1 hrunning
      have hpending' : sig ∈ q.daemon.pending := by
        rw [hdaemon, List.mem_filter, decide_eq_true_eq]
        exact ⟨hkept hrunning hpending, hnot⟩
      refine .blocked hpending' ?_
      rw [hdaemon]
      exact hhandlers hrunning
    | @together sig other hsig hother hne =>
      -- one of the two is set up below the handler that begins
      have hbelow : ∀ j ∈ p.deliverable, j ≠ k → q.outer ≠ [] := by
        intro j hj hjk
        rw [houter]
        refine List.append_ne_nil_of_left_ne_nil (List.ne_nil_of_mem (a := j) ?_) _
        rw [List.mem_filter, decide_eq_true_eq]
        exact ⟨hj, hjk⟩
      by_cases hsk : sig = k
      · exact .outer (hbelow other hother (hsk ▸ hne))
      · exact .outer (hbelow sig hsig hsk)

/-- Nobody comes back. -/
private theorem listening_step {p q : Process} {x : Turn} (h : Listening p.daemon.stack) (hstep : p.step x = some q) :
    Listening q.daemon.stack := by
  cases x with
  | step a len =>
    obtain ⟨hallows, hdaemon, -⟩ := step_eq_some hstep
    exact (stays_step .usr1 h hallows.ne_read hdaemon).1
  | deliver k =>
    obtain ⟨-, d, hd, hdaemon, -⟩ := deliver_eq_some hstep
    have hstays := stays_step .usr1 (a := .handle k) h (fun heq => Action.noConfusion heq) hd
    rw [hdaemon]
    exact hstays.1

end Process

/-- After a request that does not come in time there is always one that is pending or whose handler has not begun. -/
theorem request_lost {argv1 argv2 : Str} {s₀ : State} {p q : Process} {sig : SigNo} {dir : Str} {len : Nat}
    {xs ys : List Turn} (h₀ : main argv1 argv2 = some s₀) (hrun : run Process.step ⟨s₀, []⟩ xs = some p)
    (hlate : ¬ p.Timely (.step (.request sig dir) len))
    (hrun' : run Process.step p (.step (.request sig dir) len :: ys) = some q) (hidle : q.deliverable = []) :
    q.daemon.pending ≠ [] ∨ q.outer ≠ [] := by
  have hlistening := run_invariant (fun p x q h hstep => listening_step h hstep) (listening_main h₀) hrun
  obtain ⟨u, hu, hrun'⟩ := run_cons_eq_some.1 hrun'
  have hdoomed := run_invariant (fun p x q (h : p.Doomed ∧ Listening p.daemon.stack) hstep =>
    ⟨h.1.step h.2 hstep, listening_step h.2 hstep⟩) ⟨doomed_request hlate hu, listening_step hlistening hu⟩ hrun'
  exact hdoomed.1.idle hidle

/-- After two requests of the same kind, the second one is pending, and the path is the one of the first. -/
theorem request_pending : ∃ (s₀ : State) (xs : List Turn) (p : Process),
    boundedMain [chr 'a'] [chr 'b'] = some s₀ ∧ AllSteps Process.step InMemory ⟨s₀, []⟩ xs ∧
      run Process.step ⟨s₀, []⟩ xs = some p ∧ p.daemon.waits = true ∧ p.deliverable = [] ∧
      p.daemon.pending = [.usr1] ∧ lastRequested .usr1 [chr 'b'] xs = [chr 'd'] ∧ p.daemon.pathArgv2 = [chr 'c'] := by
  let turns : List Turn := [.step (.opendir false) 0, .step .tau 0, .step (.request .usr1 [chr 'c']) 0, .deliver .usr1,
    .step (.opendir false) 0, .step .tau 0, .step (.request .usr1 [chr 'd']) 0]
  have hrun : ((boundedMain [chr 'a'] [chr 'b']).bind fun s₀ => (run Process.step ⟨s₀, []⟩ turns).map fun p =>
      (p.daemon.waits, p.deliverable, p.daemon.pending, p.daemon.pathArgv2)) = some (true, [], [.usr1], [chr 'c']) := by
    decide +kernel
  obtain ⟨s₀, hmain, hrun⟩ := Option.bind_eq_some_iff.1 hrun
  obtain ⟨p, hp, hfields⟩ := Option.map_eq_some_iff.1 hrun
  simp only [Prod.mk.injEq] at hfields
  obtain ⟨hwaits, hidle, hpending, hpath⟩ := hfields
  have hgood : AllSteps Process.step InMemory ⟨s₀, []⟩ turns := by
    obtain rfl := Option.some.inj hmain
    decide +kernel
  exact ⟨s₀, turns, p, hmain, hgood, hp, hwaits, hidle, hpending, rfl, hpath⟩

/-- One request of each kind, delivered together: the handler of the first one never begins. -/
example : ((boundedMain [chr 'a'] [chr 'b']).bind fun s₀ => (run Process.step ⟨s₀, []⟩ [.step (.opendir false) 0,
    .step .tau 0, .step (.request .usr1 [chr 'c']) 0, .step (.request .usr2 [chr 'd']) 0, .deliver .usr2,
    .step (.opendir false) 0, .step .tau 0]).map fun p => (p.daemon.pathArgv1, p.daemon.pathArgv2, p.outer)) =
      some ([chr 'd'], [chr 'b'], [.usr1]) := by
  decide +kernel

end UnixTasks.Daemon
