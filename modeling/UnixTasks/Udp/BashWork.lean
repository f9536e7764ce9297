import UnixTasks.Udp.Shell

/-!
# bash_work

`bash_work` should be set while the bash behind `*fd` is running.  Whether it is depends on the moments at which signals
arrive, so a run of the child is taken apart further here than in `Shell`.

* `shell()` starts the bash, and only when it has returned does `execution` set `*fd` and `bash_work`.
* A signal that arrives in `poll` interrupts it: `poll` returns -1 and reports nothing, and `read_bash` returns 1.
* `shell()` keeps the slave side of each pty open in the child (`resfd`), so that no pty is ever closed and `poll` never
  reports `POLLHUP`.

Which steps keep `bash_work` right is said by `tracks_iff`, in which runs it always is by `bash_work_iff`.
-/

namespace UnixTasks.Udp.Shell

open CChar CString ActionSystem

/-! ### The child -/

/-- The child, and the bash that `shell()` has started when `execution` has not set `*fd` yet. -/
structure Session where
  child : State
  forked : Option Nat
  deriving DecidableEq, Repr

namespace Session

def start : Session := ⟨.start, none⟩

inductive Action where
  /-- A "shell", up to the `fork` in `shell()`. -/
  | fork (childBuf : List CChar)
  /-- `shell()` returns, and `*fd` and `bash_work` are set. -/
  | shellReturns
  | child (a : Shell.Action)
  /-- The bash `i` exits, and its signal interrupts `poll`. -/
  | interrupt (i : Nat)
  deriving DecidableEq, Repr

/-- The bashes write and exit whenever they want, the child goes on when `shell()` has returned. -/
def Allows (s : Session) : Shell.Action → Prop
  | .write _ _ | .exit _ => True
  | .close _ => False
  | .command childBuf _ => s.forked = none ∧ cmpComm s.child.bashWork childBuf ≠ .shell
  | .poll | .read _ | .sendInfo _ | .ret => s.forked = none

instance (s : Session) : (a : Shell.Action) → Decidable (s.Allows a)
  | .write _ _ | .exit _ => inferInstanceAs (Decidable True)
  | .close _ => inferInstanceAs (Decidable False)
  | .command _ _ => inferInstanceAs (Decidable (_ ∧ _))
  | .poll | .read _ | .sendInfo _ | .ret => inferInstanceAs (Decidable (_ = _))

def step (s : Session) : Action → Option Session
  | .fork childBuf =>
    if s.forked = none ∧ s.child.place = .idle ∧ cmpComm s.child.bashWork childBuf = .shell then
      some ⟨{ s.child with bashes := s.child.bashes ++ [.start] }, some s.child.bashes.length⟩
    else none
  | .shellReturns => s.forked.map fun i => ⟨{ s.child with bashWork := true, fd := some i }, none⟩
  | .child a => if s.Allows a then (s.child.step a).map (⟨·, s.forked⟩) else none
  | .interrupt i =>
    if s.child.place = .poll then
      (s.child.step (.exit i)).map fun child => ⟨{ child with place := .returned 1 }, s.forked⟩
    else none

/-- The descriptors are those of bashes that have been started, and no pty is closed. -/
structure Inv (s : Session) : Prop where
  opened : ∀ b ∈ s.child.bashes, b.closed = false
  fd : ∀ i ∈ s.child.fd, i < s.child.bashes.length
  forked : ∀ i ∈ s.forked, i < s.child.bashes.length

end Session

/-! ### bash_work -/

/-- A bash has been started, and the one behind `*fd` is running. -/
def State.bashRuns (s : State) : Bool := s.current.any (·.running)

/-- `bash_work` is set exactly while the bash behind `*fd` is running. -/
def Tracks (s : Session) : Prop := s.child.bashWork = s.child.bashRuns

instance (s : Session) : Decidable (Tracks s) := inferInstanceAs (Decidable (_ = _))

/-- When a bash other than the one behind `*fd` exits, the latter is not running; and when `shell()` returns, the bash
that it has started is running. -/
def KeepsTrack (s : Session) : Session.Action → Prop
  | .child (.exit i) | .interrupt i => s.child.fd = some i ∨ s.child.bashRuns = false
  | .shellReturns => (s.forked.bind fun i => s.child.bashes[i]?).any (·.running) = true
  | _ => True

section Steps

variable {s t : Session} {u : State} {a : Action} {i : Nat} {b b' : Bash}

/-- A step of a bash that goes on running, or of a bash that is not behind `*fd`, changes nothing. -/
private theorem bashRuns_setBash {s : State} (hb : s.bashes[i]? = some b)
    (hrun : s.fd = some i → b'.running = b.running) :
    (s.setBash i b').bashRuns = s.bashRuns := by
  rw [State.bashRuns, current_setBash hb]
  split
  · rename_i hi
    rw [State.bashRuns, State.current, hi, Option.bind_some, hb, Option.any_some, Option.any_some, hrun hi]
  · rfl

/-- After the exit of a bash the one behind `*fd` is not running: it is the same one, or it was not running. -/
private theorem bashRuns_exit_iff {s : State} (hb : s.bashes[i]? = some b) :
    (s.setBash i { b with running := false }).bashRuns = false ↔ s.fd = some i ∨ s.bashRuns = false := by
  by_cases hi : s.fd = some i
  · refine iff_of_true ?_ (.inl hi)
    rw [State.bashRuns, current_setBash hb, if_pos hi]
    rfl
  · rw [bashRuns_setBash hb fun h => absurd h hi, or_iff_right hi]

private theorem execution_of_ne_shell {s : State} {ok : Bool} {childBuf : List CChar}
    (h : cmpComm s.bashWork childBuf ≠ .shell) :
    (s.execution ok childBuf).bashes = s.bashes ∧ (s.execution ok childBuf).fd = s.fd ∧
      (s.execution ok childBuf).bashWork = s.bashWork := by
  unfold State.execution
  split
  · exact ⟨rfl, rfl, rfl⟩
  · exact ⟨rfl, rfl, rfl⟩
  · rename_i hshell
    exact absurd hshell h
  · exact ⟨rfl, rfl, rfl⟩

/-- A bash that has not been closed by one of its own steps. -/
private theorem opened_setBash {s : State} (h : ∀ b ∈ s.bashes, b.closed = false) (hb : s.bashes[i]? = some b)
    (hclosed : b'.closed = b.closed) : ∀ c ∈ (s.setBash i b').bashes, c.closed = false := by
  intro c hc
  rcases List.mem_or_eq_of_mem_set hc with hc | rfl
  · exact h c hc
  · rw [hclosed]
    exact h b (List.mem_of_getElem? hb)

/-- What a step of the child or of a bash leaves as it is. -/
private theorem keeps_of_allows (h : s.Inv) (ha : s.Allows a) (hs : s.child.step a = some u) :
    (∀ b ∈ u.bashes, b.closed = false) ∧ u.fd = s.child.fd ∧ u.bashes.length = s.child.bashes.length := by
  have hmoves := moves_of_step hs
  clear hs
  cases hmoves with
  | command hidle =>
    obtain ⟨hbashes, hfd, -⟩ := execution_of_ne_shell ha.2
    rw [hbashes, hfd]
    exact ⟨h.opened, rfl, rfl⟩
  | read hfd hb hplace hn hle => exact ⟨opened_setBash h.opened hb rfl, rfl, List.length_set⟩
  | write hb hopen => exact ⟨opened_setBash h.opened hb rfl, rfl, List.length_set⟩
  | exit hb => exact ⟨opened_setBash h.opened hb rfl, rfl, List.length_set⟩
  | close hb => cases ha
  | _ => exact ⟨h.opened, rfl, rfl⟩

/-- Exactly the steps that keep track lead from a child in which `bash_work` is right to one. -/
private theorem tracks_child_iff (h : s.Inv) (htracks : Tracks s) (ha : s.Allows a) (hs : s.child.step a = some u) :
    u.bashWork = u.bashRuns ↔ KeepsTrack s (.child a) := by
  have hmoves := moves_of_step hs
  clear hs
  cases hmoves with
  | @command childBuf ok hidle =>
    obtain ⟨hbashes, hfd, hwork⟩ := @execution_of_ne_shell s.child ok childBuf ha.2
    refine iff_of_true ?_ trivial
    rw [State.bashRuns, State.current, hbashes, hfd, hwork]
    exact htracks
  | @pollhup b hb hplace hclosed =>
    -- nobody closes a pty
    obtain ⟨j, -, hj⟩ := Option.bind_eq_some_iff.1 hb
    rw [h.opened b (List.mem_of_getElem? hj)] at hclosed
    cases hclosed
  | @read fd b n hfd hb hplace hn hle =>
    have hruns : (s.child.setBash fd (b.take n)).bashRuns = s.child.bashRuns := bashRuns_setBash hb fun _ => rfl
    exact iff_of_true (htracks.trans hruns.symm) trivial
  | @write i b data hb hopen =>
    have hruns : (s.child.setBash i { b with unread := b.unread ++ data }).bashRuns = s.child.bashRuns :=
      bashRuns_setBash hb fun _ => rfl
    exact iff_of_true (htracks.trans hruns.symm) trivial
  | close hb => cases ha
  | exit hb => exact eq_comm.trans (bashRuns_exit_iff hb)
  | _ => exact iff_of_true htracks trivial

/-- In the step of a bash that starts, the one behind `*fd` stays. -/
private theorem bashRuns_append {s : State} (h : ∀ i ∈ s.fd, i < s.bashes.length) :
    State.bashRuns { s with bashes := s.bashes ++ [.start] } = s.bashRuns := by
  rw [State.bashRuns, State.bashRuns, State.current, State.current]
  cases hfd : s.fd with
  | none => rfl
  | some i => rw [Option.bind_some, Option.bind_some, List.getElem?_append_left (h i hfd)]

theorem inv_step {a : Session.Action} (h : s.Inv) (hs : s.step a = some t) : t.Inv := by
  have hkeep : ∀ {a : Action} {u : State}, s.Allows a → s.child.step a = some u → (⟨u, s.forked⟩ : Session).Inv := by
    intro a u ha hu
    obtain ⟨hopened, hfd, hlen⟩ := keeps_of_allows h ha hu
    exact ⟨hopened, by rw [hfd, hlen]; exact h.fd, by rw [hlen]; exact h.forked⟩
  cases a with
  | fork childBuf =>
    rw [Session.step] at hs
    split at hs <;> cases hs
    refine ⟨fun b hb => ?_, fun i hi => ?_, fun i hi => ?_⟩
    · rcases List.mem_append.1 hb with hb | hb
      · exact h.opened b hb
      · rw [List.mem_singleton.1 hb]
        rfl
    · have hlt := h.fd i hi
      rw [List.length_append]
      omega
    · obtain rfl := Option.some.inj hi
      rw [List.length_append]
      exact Nat.lt_succ_self _
  | shellReturns =>
    obtain ⟨i, hi, rfl⟩ := Option.map_eq_some_iff.1 hs
    exact ⟨h.opened, fun j hj => Option.some.inj hj ▸ h.forked i hi, nofun⟩
  | child a =>
    rw [Session.step] at hs
    split at hs
    · rename_i ha
      obtain ⟨u, hu, rfl⟩ := Option.map_eq_some_iff.1 hs
      exact hkeep ha hu
    · cases hs
  | interrupt i =>
    rw [Session.step] at hs
    split at hs
    · obtain ⟨u, hu, rfl⟩ := Option.map_eq_some_iff.1 hs
      have hinv := @hkeep (.exit i) u trivial hu
      exact ⟨hinv.opened, hinv.fd, hinv.forked⟩
    · cases hs

/-- From a state in which `bash_work` is right, exactly these steps lead to one in which it is. -/
theorem tracks_iff {a : Session.Action} (h : s.Inv) (htracks : Tracks s) (hs : s.step a = some t) :
    Tracks t ↔ KeepsTrack s a := by
  cases a with
  | fork childBuf =>
    rw [Session.step] at hs
    split at hs <;> cases hs
    exact iff_of_true (htracks.trans (bashRuns_append h.fd).symm) trivial
  | shellReturns =>
    obtain ⟨i, hi, rfl⟩ := Option.map_eq_some_iff.1 hs
    rw [KeepsTrack, hi, Option.bind_some]
    exact eq_comm
  | child a =>
    rw [Session.step] at hs
    split at hs
    · rename_i ha
      obtain ⟨u, hu, rfl⟩ := Option.map_eq_some_iff.1 hs
      exact tracks_child_iff h htracks ha hu
    · cases hs
  | interrupt i =>
    rw [Session.step] at hs
    split at hs
    · obtain ⟨u, hu, rfl⟩ := Option.map_eq_some_iff.1 hs
      exact @tracks_child_iff s u (.exit i) h htracks trivial hu
    · cases hs

end Steps

theorem inv_start : Session.start.Inv := ⟨nofun, nofun, nofun⟩

private theorem tracks_start : Tracks .start := rfl

/-- In every run `bash_work` is right in every state on the way if and only if no bash exits while another one runs
behind `*fd`, nor between its start and the return of `shell()`. -/
theorem bash_work_iff {as : List Session.Action} {u : Session} (hrun : run Session.step .start as = some u) :
    (∀ pre t, pre <+: as → run Session.step .start pre = some t → Tracks t) ↔
      AllSteps Session.step KeepsTrack .start as := by
  have hstep : ∀ s a t, s.Inv ∧ Tracks s → True → s.step a = some t → (t.Inv ∧ Tracks t ↔ KeepsTrack s a) := by
    intro s a t ⟨h, htracks⟩ _ hs
    rw [and_iff_right (inv_step h hs)]
    exact tracks_iff h htracks hs
  rw [← run_keeps_iff hstep ⟨inv_start, tracks_start⟩ (fun _ _ => trivial) hrun]
  constructor
  · intro h pre t hpre hpre_run
    exact ⟨run_invariant (fun _ _ _ h hs => inv_step h hs) inv_start hpre_run, h pre t hpre hpre_run⟩
  · intro h pre t hpre hpre_run
    exact (h pre t hpre hpre_run).2

/-- A shell, and the bash exits. -/
theorem bash_work_iff_exit :
    (∀ pre t, pre <+: [.fork shellCmd, .shellReturns, .child (.exit 0)] → run Session.step .start pre = some t →
      Tracks t) ↔
      AllSteps Session.step KeepsTrack .start [.fork shellCmd, .shellReturns, .child (.exit 0)] :=
  bash_work_iff (u := ⟨⟨false, some 0, [⟨false, false, [], []⟩], .idle, []⟩, none⟩) (by decide)

/-- Two shells, and the bash of the first one exits: `bash_work` is 0 while the second one runs. -/
theorem bash_work_cleared :
    ∃ t, run Session.step .start [.fork shellCmd, .shellReturns, .fork shellCmd, .shellReturns, .child (.exit 0)] =
      some t ∧ t.child.bashWork = false ∧ t.child.bashRuns = true :=
  ⟨⟨⟨false, some 1, [⟨false, false, [], []⟩, .start], .idle, []⟩, none⟩, by decide⟩

end UnixTasks.Udp.Shell
